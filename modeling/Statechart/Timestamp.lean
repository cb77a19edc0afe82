/-!
# Points in time

A `Timestamp` counts nanoseconds from the start of 1970.  Its text is a date and a
time of day in universal time, with as many groups of three fraction digits as it
takes; a text with another offset is read as the same point in time.
-/

namespace Statechart

/-- A point in time, in nanoseconds from the start of 1970. -/
structure Timestamp where
  nanos : Int
deriving Repr, DecidableEq

namespace Timestamp

/-- The point in time some milliseconds after the start of 1970. -/
def ofMillis (ms : Int) : Timestamp := ⟨ms * 1000000⟩

/-- The number of nanoseconds in a second. -/
def nanosPerSecond : Int := 1000000000

/-! ### Calendar -/

/-- A day of the calendar. -/
structure Date where
  year : Int
  month : Nat
  day : Nat
deriving Repr, DecidableEq

namespace Date

/-- Whether a year has a leap day. -/
def isLeap (year : Int) : Bool :=
  year % 4 == 0 && (year % 100 != 0 || year % 400 == 0)

/-- The number of days of a month. -/
def monthLength (year : Int) (month : Nat) : Nat :=
  match month with
  | 2 => if isLeap year then 29 else 28
  | 4 | 6 | 9 | 11 => 30
  | _ => 31

/-- Whether there is such a day. -/
def isValid (d : Date) : Bool :=
  1 ≤ d.month && d.month ≤ 12 && 1 ≤ d.day && d.day ≤ monthLength d.year d.month
    && -262143 ≤ d.year && d.year ≤ 262142

/-- The number of days from the start of 1970.  Years are counted from March, in
cycles of four hundred. -/
def toDays (d : Date) : Int :=
  let year := if d.month ≤ 2 then d.year - 1 else d.year
  let cycle := year / 400
  let yearOfCycle := year % 400
  let month : Int := if 2 < d.month then d.month - 3 else d.month + 9
  let dayOfYear := (153 * month + 2) / 5 + d.day - 1
  let dayOfCycle := yearOfCycle * 365 + yearOfCycle / 4 - yearOfCycle / 100 + dayOfYear
  cycle * 146097 + dayOfCycle - 719468

/-- The day a number of days from the start of 1970. -/
def ofDays (days : Int) : Date :=
  let shifted := days + 719468
  let cycle := shifted / 146097
  let dayOfCycle := shifted % 146097
  let yearOfCycle :=
    (dayOfCycle - dayOfCycle / 1460 + dayOfCycle / 36524 - dayOfCycle / 146096) / 365
  let dayOfYear := dayOfCycle - (365 * yearOfCycle + yearOfCycle / 4 - yearOfCycle / 100)
  let month := (5 * dayOfYear + 2) / 153
  let day := dayOfYear - (153 * month + 2) / 5 + 1
  let month := if month < 10 then month + 3 else month - 9
  let year := yearOfCycle + cycle * 400
  ⟨if month ≤ 2 then year + 1 else year, month.toNat, day.toNat⟩

end Date

/-! ### Text -/

/-- A number with at least `width` digits. -/
def padded (width n : Nat) : String :=
  let digits := toString n
  String.ofList (List.replicate (width - digits.length) '0') ++ digits

/-- A year has four digits, and a sign outside the years 0 to 9999. -/
def yearText (year : Int) : String :=
  if 0 ≤ year ∧ year ≤ 9999 then padded 4 year.toNat
  else if 0 ≤ year then "+" ++ padded 4 year.toNat
  else "-" ++ padded 4 (-year).toNat

/-- The fraction of a second, in no, one, two or three groups of three digits. -/
def fractionText (nanos : Nat) : String :=
  if nanos = 0 then ""
  else if nanos % 1000000 = 0 then "." ++ padded 3 (nanos / 1000000)
  else if nanos % 1000 = 0 then "." ++ padded 6 (nanos / 1000)
  else "." ++ padded 9 nanos

/-- The text of a point in time. -/
def text (t : Timestamp) : String :=
  let seconds := t.nanos / nanosPerSecond
  let fraction := (t.nanos % nanosPerSecond).toNat
  let date := Date.ofDays (seconds / 86400)
  let ofDay := (seconds % 86400).toNat
  yearText date.year ++ "-" ++ padded 2 date.month ++ "-" ++ padded 2 date.day ++ "T"
    ++ padded 2 (ofDay / 3600) ++ ":" ++ padded 2 (ofDay / 60 % 60) ++ ":"
    ++ padded 2 (ofDay % 60) ++ fractionText fraction ++ "Z"

/-! ### Reading -/

/-- Whether a character is a decimal digit. -/
def isDigit (c : Char) : Bool := '0' ≤ c && c ≤ '9'

/-- The number with the given digits. -/
def number (digits : List Char) : Nat := digits.foldl (fun n d => n * 10 + (d.toNat - 48)) 0

/-- Text after blanks. -/
def trim (cs : List Char) : List Char := cs.dropWhile Char.isWhitespace

/-- A number of at most `width` digits, after blanks. -/
def readNumber (width : Nat) (cs : List Char) : Option (Nat × List Char) :=
  let cs := trim cs
  let digits := (cs.takeWhile isDigit).take width
  if digits.isEmpty then none else some (number digits, cs.drop digits.length)

/-- A year, with any number of digits after a sign. -/
def readYear (cs : List Char) : Option (Int × List Char) :=
  match trim cs with
  | '-' :: rest => (readNumber rest.length rest).map fun r => (-(r.1 : Int), r.2)
  | '+' :: rest => (readNumber rest.length rest).map fun r => ((r.1 : Int), r.2)
  | rest => (readNumber 4 rest).map fun r => ((r.1 : Int), r.2)

/-- A separator, after blanks. -/
def readMark (mark : Char) (cs : List Char) : Option (List Char) :=
  match trim cs with
  | c :: rest => if c = mark then some rest else none
  | [] => none

/-- A fraction of a second, in nanoseconds; digits beyond the ninth are passed over. -/
def readFraction (cs : List Char) : Option (Nat × List Char) :=
  match cs with
  | '.' :: rest =>
    let digits := rest.takeWhile isDigit
    if digits.isEmpty then none
    else
      let kept := digits.take 9
      some (number kept * Nat.pow 10 (9 - kept.length), rest.drop digits.length)
  | cs => some (0, cs)

/-- The offset from universal time, in seconds: a letter, or hours and perhaps
minutes after a sign. -/
def readOffset (cs : List Char) : Option (Int × List Char) :=
  match trim cs with
  | 'Z' :: rest => some (0, rest)
  | 'z' :: rest => some (0, rest)
  | sign :: a :: b :: rest =>
    if (sign = '+' ∨ sign = '-') ∧ isDigit a ∧ isDigit b then
      let hours := number [a, b]
      let rest := rest.dropWhile fun c => c = ':' || c.isWhitespace
      let minutes : Option (Nat × List Char) :=
        match rest with
        | c :: d :: rest =>
          if isDigit c ∧ isDigit d then some (number [c, d], rest) else none
        | [] => some (0, [])
        | _ => none
      match minutes with
      | some (minutes, rest) =>
        if 60 ≤ minutes ∨ 24 ≤ hours then none
        else
          let seconds : Int := hours * 3600 + minutes * 60
          some (if sign = '-' then -seconds else seconds, rest)
      | none => none
    else none
  | _ => none

/-- The point in time with the given text, if it is a real one. -/
def ofText (s : String) : Option Timestamp := do
  let (year, cs) ← readYear s.toList
  let cs ← readMark '-' cs
  let (month, cs) ← readNumber 2 cs
  let cs ← readMark '-' cs
  let (day, cs) ← readNumber 2 cs
  let cs ← match cs with
    | 'T' :: rest => some rest
    | 't' :: rest => some rest
    | ' ' :: rest => some rest
    | _ => none
  let (hour, cs) ← readNumber 2 cs
  let cs ← readMark ':' cs
  let (minute, cs) ← readNumber 2 cs
  let cs ← readMark ':' cs
  let (second, cs) ← readNumber 2 cs
  let (fraction, cs) ← readFraction cs
  let (offset, cs) ← readOffset cs
  let date : Date := ⟨year, month, day⟩
  if date.isValid ∧ hour < 24 ∧ minute < 60 ∧ second ≤ 60 ∧ (trim cs).isEmpty then
    let seconds : Int := date.toDays * 86400 + hour * 3600 + minute * 60 + second - offset
    some ⟨seconds * nanosPerSecond + fraction⟩
  else none

end Timestamp

end Statechart
