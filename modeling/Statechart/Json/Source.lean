import Statechart.Json

/-!
# What a left-to-right reader of JSON meets

A `Source` is a JSON value as it is met in reading order: lists and maps keep every
entry, repeated keys included, and say how they end.  A text that goes wrong is read
up to the point where it does, so that a decoder working from left to right finds
either the first mistake in the contents or the place where the text breaks,
whichever comes first.  A finished value is a source too, in which nothing is wrong.
-/

namespace Statechart

/-- The way in which a text fails to be JSON: it stops too early, or a character is
out of place. -/
inductive Fault where
  | ended
  | malformed
deriving Repr, DecidableEq

/-- How a list or map ends: its extent is known beforehand, it is closed by its
bracket, or the text breaks inside it.  A map is keyless where something other than a
string stands in the place of a key; that may be a value, or have a fault inside. -/
inductive Ending where
  | whole
  | closed
  | cut (fault : Fault)
  | keyless (inside : Option Fault)
deriving Repr, DecidableEq

/-- The fault at the end, if any. -/
def Ending.fault? : Ending → Option Fault
  | .cut fault => some fault
  | .keyless _ => some .malformed
  | _ => none

/-- A value in reading order.  A `defective` value can be skipped but not read: its
text has no value, or it is nested too deeply. -/
inductive Source where
  | null
  | bool (value : Bool)
  | number (value : Number)
  | string (value : String)
  | list (items : List Source) (ending : Ending)
  | map (entries : List (String × Source)) (ending : Ending)
  | defective (inner : Source)
  | broken (fault : Fault)

namespace Source

instance : Inhabited Source := ⟨null⟩

/-- The fault that is met in beginning to read a value. -/
def firstFault? : Source → Option Fault
  | .broken fault => some fault
  | .defective _ => some .malformed
  | _ => none

/-! ### Sources of values -/

mutual

/-- A finished value as a source. -/
def ofJson : Json → Source
  | .null => .null
  | .bool b => .bool b
  | .number n => .number n
  | .string s => .string s
  | .array items => .list (ofItems items) .whole
  | .object ⟨fields⟩ => .map (ofFields fields) .whole

/-- Finished items as sources. -/
def ofItems : List Json → List Source
  | [] => []
  | item :: rest => ofJson item :: ofItems rest

/-- Finished fields as sources. -/
def ofFields : List (String × Json) → List (String × Source)
  | [] => []
  | (k, v) :: rest => (k, ofJson v) :: ofFields rest

end

mutual

/-- The value of a source, or the first fault in it.  Of a repeated key the last
value stands at the first place. -/
def toJson : Source → Except Fault Json
  | .null => .ok .null
  | .bool b => .ok (.bool b)
  | .number n => .ok (.number n)
  | .string s => .ok (.string s)
  | .list items ending => do
    let values ← toItems items
    match ending.fault? with
    | some fault => .error fault
    | none => .ok (.array values)
  | .map entries ending => do
    let fields ← toFields entries .empty
    match ending.fault? with
    | some fault => .error fault
    | none => .ok (.object fields)
  | .defective _ => .error .malformed
  | .broken fault => .error fault

/-- The values of a list of sources. -/
def toItems : List Source → Except Fault (List Json)
  | [] => .ok []
  | item :: rest => do
    let value ← toJson item
    let values ← toItems rest
    return value :: values

/-- The values of entries, inserted in order. -/
def toFields : List (String × Source) → OrderedMap Json → Except Fault (OrderedMap Json)
  | [], acc => .ok acc
  | (k, v) :: rest, acc => do
    let value ← toJson v
    toFields rest (acc.insert k value)

end

mutual

/-- The fault met when a source is passed over without being read. -/
def skipFault? : Source → Option Fault
  | .list items ending => (skipItems? items).or ending.fault?
  | .map entries ending => (skipEntries? entries).or ending.fault?
  | .defective inner => skipFault? inner
  | .broken fault => some fault
  | _ => none

/-- The first fault in a list that is passed over. -/
def skipItems? : List Source → Option Fault
  | [] => none
  | item :: rest => (skipFault? item).or (skipItems? rest)

/-- The first fault in entries that are passed over. -/
def skipEntries? : List (String × Source) → Option Fault
  | [] => none
  | (_, v) :: rest => (skipFault? v).or (skipEntries? rest)

end

mutual

/-- The fault met when a source is read as a whole before it is looked at. -/
def readFault? : Source → Option Fault
  | .list items ending => (readItems? items).or ending.fault?
  | .map entries ending => (readEntries? entries).or ending.fault?
  | .defective _ => some .malformed
  | .broken fault => some fault
  | _ => none

/-- The first fault in a list that is read. -/
def readItems? : List Source → Option Fault
  | [] => none
  | item :: rest => (readFault? item).or (readItems? rest)

/-- The first fault in entries that are read. -/
def readEntries? : List (String × Source) → Option Fault
  | [] => none
  | (_, v) :: rest => (readFault? v).or (readEntries? rest)

end

/-! ### Reading text -/

/-- The characters between tokens. -/
def isBlank (c : Char) : Bool := c = ' ' || c = '\n' || c = '\t' || c = '\r'

/-- The text after blanks. -/
def skipBlank (cs : List Char) : List Char := cs.dropWhile isBlank

/-- The value of a hexadecimal digit. -/
def hexValue? (c : Char) : Option Nat :=
  let n := c.toNat
  if 48 ≤ n ∧ n ≤ 57 then some (n - 48)
  else if 97 ≤ n ∧ n ≤ 102 then some (n - 87)
  else if 65 ≤ n ∧ n ≤ 70 then some (n - 55)
  else none

/-- Four hexadecimal digits and what follows them. -/
def hexUnit (cs : List Char) : Except Fault (Nat × List Char) :=
  match cs with
  | a :: b :: c :: d :: rest =>
    match hexValue? a, hexValue? b, hexValue? c, hexValue? d with
    | some a, some b, some c, some d => .ok (((a * 16 + b) * 16 + c) * 16 + d, rest)
    | _, _, _, _ => .error .malformed
  | _ => if cs.all fun c => (hexValue? c).isSome then .error .ended else .error .malformed

/-- The outcome of reading a string: its text and what follows, or a fault.  The flag
says whether some escape stands for no character. -/
structure StringRead where
  text : List Char
  defective : Bool
  rest : Except Fault (List Char)

/-- Puts a character before the text of a string. -/
def StringRead.cons (c : Char) (r : StringRead) : StringRead :=
  { r with text := c :: r.text }

/-- Marks a string as one without a value. -/
def StringRead.spoil (r : StringRead) : StringRead := { r with defective := true }

/-- A string that breaks. -/
def StringRead.fail (fault : Fault) : StringRead := ⟨[], false, .error fault⟩

/-- Whether a code unit is the first half of a pair. -/
def isHighHalf (n : Nat) : Bool := 0xD800 ≤ n && n < 0xDC00

/-- Whether a code unit is the second half of a pair. -/
def isLowHalf (n : Nat) : Bool := 0xDC00 ≤ n && n < 0xE000

/-- The character of two halves. -/
def joinHalves (high low : Nat) : Char :=
  Char.ofNat (0x10000 + (high - 0xD800) * 0x400 + (low - 0xDC00))

/-- The character of a short escape. -/
def shortEscape? (c : Char) : Option Char :=
  if c = '"' then some '"'
  else if c = '\\' then some '\\'
  else if c = '/' then some '/'
  else if c = 'b' then some (Char.ofNat 8)
  else if c = 'f' then some (Char.ofNat 12)
  else if c = 'n' then some '\n'
  else if c = 'r' then some '\r'
  else if c = 't' then some '\t'
  else none

/-- Reads a string after its opening quote; `fuel` bounds its length. -/
def readString : Nat → List Char → StringRead
  | 0, _ => .fail .malformed
  | _, [] => .fail .ended
  | fuel + 1, c :: rest =>
    if c = '"' then ⟨[], false, .ok rest⟩
    else if c.toNat < 32 then .fail .malformed
    else if c ≠ '\\' then (readString fuel rest).cons c
    else
      match rest with
      | [] => .fail .ended
      | e :: rest =>
        if e ≠ 'u' then
          match shortEscape? e with
          | some c => (readString fuel rest).cons c
          | none => .fail .malformed
        else
          match hexUnit rest with
          | .error fault => .fail fault
          | .ok (unit, rest) =>
            if isHighHalf unit then
              match rest with
              | '\\' :: 'u' :: after =>
                match hexUnit after with
                | .error fault => .fail fault
                | .ok (low, after') =>
                  if isLowHalf low then (readString fuel after').cons (joinHalves unit low)
                  else (readString fuel rest).spoil
              | _ => (readString fuel rest).spoil
            else if isLowHalf unit then (readString fuel rest).spoil
            else (readString fuel rest).cons (Char.ofNat unit)

/-- Whether a character is a decimal digit. -/
def isDigit (c : Char) : Bool := '0' ≤ c && c ≤ '9'

/-- The value of a decimal digit. -/
def digitValue (c : Char) : Nat := c.toNat - 48

/-- Appends digits to a significand as long as it stays within bounds; the digits that
are left over. -/
def takeFitting (significand : Nat) : List Char → Nat × List Char
  | [] => (significand, [])
  | d :: rest =>
    let next := significand * 10 + digitValue d
    if next ≤ Binary64.maxSignificand then takeFitting next rest
    else (significand, d :: rest)

/-- The parts of a number: sign, integer digits, fraction digits and exponent. -/
structure NumberText where
  negative : Bool
  whole : List Char
  fraction : Option (List Char)
  exponent : Option Int

/-- Reads the exponent after `e`. -/
def readExponent (cs : List Char) : Except Fault (Int × List Char) :=
  let negative := cs.head? = some '-'
  let cs := match cs with
    | '+' :: rest => rest
    | '-' :: rest => rest
    | _ => cs
  let digits := cs.takeWhile isDigit
  let rest := cs.dropWhile isDigit
  match digits, rest with
  | [], [] => .error .ended
  | [], _ => .error .malformed
  | _, _ =>
    let size : Int := digits.foldl (fun n d => n * 10 + digitValue d) 0
    .ok (if negative then -size else size, rest)

/-- Reads the digits after a decimal point. -/
def readFraction (cs : List Char) : Except Fault (List Char × List Char) :=
  let digits := cs.takeWhile isDigit
  let rest := cs.dropWhile isDigit
  match digits, rest with
  | [], [] => .error .ended
  | [], _ => .error .malformed
  | _, _ => .ok (digits, rest)

/-- Reads the parts of a number and what follows. -/
def readNumberText (cs : List Char) : Except Fault (NumberText × List Char) := do
  let negative := cs.head? = some '-'
  let cs := if negative then cs.drop 1 else cs
  let whole := cs.takeWhile isDigit
  let rest := cs.dropWhile isDigit
  match whole, rest with
  | [], [] => throw .ended
  | [], _ => throw .malformed
  | '0' :: _ :: _, _ => throw .malformed
  | _, _ => pure ()
  let (fraction, rest) ← match rest with
    | '.' :: rest => do
      let (digits, rest) ← readFraction rest
      pure (some digits, rest)
    | _ => pure (none, rest)
  let (exponent, rest) ← match rest with
    | 'e' :: rest => do
      let (exponent, rest) ← readExponent rest
      pure (some exponent, rest)
    | 'E' :: rest => do
      let (exponent, rest) ← readExponent rest
      pure (some exponent, rest)
    | _ => pure (none, rest)
  return (⟨negative, whole, fraction, exponent⟩, rest)

/-- The number that its parts denote: an integer if it is written as one and fits
64 bits, else a floating-point number.  `none` if it is beyond the largest one. -/
def NumberText.value (t : NumberText) : Option Number :=
  let (significand, leftWhole) := takeFitting 0 t.whole
  let asInteger : Option Int :=
    if t.fraction.isNone ∧ t.exponent.isNone ∧ leftWhole.isEmpty then
      if t.negative then
        if significand ≠ 0 ∧ minInt64 ≤ -(significand : Int) then some (-(significand : Int)) else none
      else some significand
    else none
  match asInteger with
  | some n => some (.int n)
  | none =>
    let fraction := t.fraction.getD []
    let (significand, leftFraction) := takeFitting significand fraction
    let scale : Int :=
      leftWhole.length - ((fraction.length : Int) - leftFraction.length) + t.exponent.getD 0
    if significand = 0 then some (.float (.zero t.negative))
    else (Binary64.ofDecimal t.negative significand scale).map .float

/-- Reads a literal whose first character has been seen. -/
def readLiteral (value : Source) : List Char → List Char → Source × Option (List Char)
  | [], cs => (value, some cs)
  | _ :: _, [] => (.broken .ended, none)
  | w :: word, c :: cs =>
    if w = c then readLiteral value word cs else (.broken .malformed, none)

/-- The greatest nesting depth of a value that can be read. -/
def maxDepth : Nat := 127

/-- Marks a list or map that is nested too deeply. -/
def bounded (depth : Nat) (s : Source) : Source :=
  if maxDepth < depth then .defective s else s

mutual

/-- Reads one value at nesting depth `depth`, and says what text follows it; nothing
follows a value in which the text breaks.  `fuel` bounds the length of the text. -/
def readValue : Nat → Nat → List Char → Source × Option (List Char)
  | 0, _, _ => (.broken .malformed, none)
  | fuel + 1, depth, cs =>
    match skipBlank cs with
    | [] => (.broken .ended, none)
    | '"' :: rest =>
      let read := readString (rest.length + 1) rest
      let mark (s : Source) : Source := if read.defective then .defective s else s
      match read.rest with
      | .ok rest => (mark (.string (String.ofList read.text)), some rest)
      | .error fault => (mark (.broken fault), none)
    | '[' :: rest =>
      let (items, ending, rest) := readItems fuel (depth + 1) true rest
      (bounded (depth + 1) (.list items ending), rest)
    | '\x7b' :: rest =>
      let (entries, ending, rest) := readEntries fuel (depth + 1) true rest
      (bounded (depth + 1) (.map entries ending), rest)
    | 'n' :: rest => readLiteral .null ['u', 'l', 'l'] rest
    | 't' :: rest => readLiteral (.bool true) ['r', 'u', 'e'] rest
    | 'f' :: rest => readLiteral (.bool false) ['a', 'l', 's', 'e'] rest
    | c :: rest =>
      if c = '-' ∨ isDigit c then
        match readNumberText (c :: rest) with
        | .error fault => (.broken fault, none)
        | .ok (parts, rest) =>
          match parts.value with
          | some n => (.number n, some rest)
          | none => (.defective .null, some rest)
      else (.broken .malformed, none)

/-- Reads the items of a list after its bracket or after an item. -/
def readItems : Nat → Nat → Bool → List Char → List Source × Ending × Option (List Char)
  | 0, _, _, _ => ([], .cut .malformed, none)
  | fuel + 1, depth, first, cs =>
    match skipBlank cs with
    | [] => ([], .cut .ended, none)
    | ']' :: rest => ([], .closed, some rest)
    | c :: rest =>
      if first then readItem fuel depth (c :: rest)
      else if c ≠ ',' then ([], .cut .malformed, none)
      else
        match skipBlank rest with
        | ']' :: _ => ([], .cut .malformed, none)
        | rest => readItem fuel depth rest

/-- Reads one item of a list, then the others. -/
def readItem : Nat → Nat → List Char → List Source × Ending × Option (List Char)
  | 0, _, _ => ([], .cut .malformed, none)
  | fuel + 1, depth, cs =>
    match readValue fuel depth cs with
    | (value, none) => ([value], .closed, none)
    | (value, some rest) =>
      let (items, ending, rest) := readItems fuel depth false rest
      (value :: items, ending, rest)

/-- Reads the entries of a map after its brace or after an entry. -/
def readEntries : Nat → Nat → Bool → List Char →
    List (String × Source) × Ending × Option (List Char)
  | 0, _, _, _ => ([], .cut .malformed, none)
  | fuel + 1, depth, first, cs =>
    match skipBlank cs with
    | [] => ([], .cut .ended, none)
    | '\x7d' :: rest => ([], .closed, some rest)
    | c :: rest =>
      if first then readEntry fuel depth (c :: rest)
      else if c ≠ ',' then ([], .cut .malformed, none)
      else readEntry fuel depth (skipBlank rest)

/-- Reads one entry of a map, then the others. -/
def readEntry : Nat → Nat → List Char →
    List (String × Source) × Ending × Option (List Char)
  | 0, _, _ => ([], .cut .malformed, none)
  | _, _, [] => ([], .cut .ended, none)
  | fuel + 1, depth, c :: rest =>
    if c ≠ '"' then ([], .keyless (readValue fuel depth (c :: rest)).1.firstFault?, none)
    else
      let read := readString (rest.length + 1) rest
      match read.defective, read.rest with
      | true, _ => ([], .cut .malformed, none)
      | _, .error fault => ([], .cut fault, none)
      | false, .ok rest =>
        match skipBlank rest with
        | [] => ([], .cut .ended, none)
        | ':' :: rest =>
          match readValue fuel depth rest with
          | (value, none) => ([(String.ofList read.text, value)], .closed, none)
          | (value, some rest) =>
            let (entries, ending, rest) := readEntries fuel depth false rest
            ((String.ofList read.text, value) :: entries, ending, rest)
        | _ => ([], .cut .malformed, none)

end

/-- A text as a source, and whether something other than blanks follows the value. -/
def ofText (text : String) : Source × Bool :=
  let cs := text.toList
  match readValue (4 * cs.length + 4) 0 cs with
  | (source, some rest) => (source, !(skipBlank rest).isEmpty)
  | (source, none) => (source, false)

end Source

/-- The value that a text denotes, or the first fault in it. -/
def Json.ofText (text : String) : Except Fault Json :=
  let (source, trailing) := Source.ofText text
  match source.toJson with
  | .error fault => .error fault
  | .ok value => if trailing then .error .malformed else .ok value

end Statechart
