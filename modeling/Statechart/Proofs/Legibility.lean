import Statechart.Json.Source
import Statechart.Json.Text

/-!
# Text that is read back

From the compact text of a value the value is read again, and nothing is left over
(`Source.ofText_compact`).  Two things are asked of the value: each number in it is read back from
its text, as every integer of 64 bits is (`Number.legible_int`), and lists and maps are not nested
more deeply than can be read.
-/

namespace Statechart

open Json

/-! ### Values in reading order -/

namespace Source

mutual

/-- A value in reading order, in which each list and each map ends in the same way. -/
def written (ending : Ending) : Json → Source
  | .null => .null
  | .bool b => .bool b
  | .number n => .number n
  | .string s => .string s
  | .array items => .list (writtenItems ending items) ending
  | .object ⟨fields⟩ => .map (writtenFields ending fields) ending

/-- Items in reading order. -/
def writtenItems (ending : Ending) : List Json → List Source
  | [] => []
  | item :: rest => written ending item :: writtenItems ending rest

/-- Fields in reading order. -/
def writtenFields (ending : Ending) : List (String × Json) → List (String × Source)
  | [] => []
  | (k, v) :: rest => (k, written ending v) :: writtenFields ending rest

end

mutual

/-- A finished value is written so that everything has a known extent. -/
theorem written_whole : (j : Json) → written .whole j = ofJson j
  | .null | .bool _ | .number _ | .string _ => by simp [written, ofJson]
  | .array items => by rw [written, ofJson, writtenItems_whole items]
  | .object ⟨fields⟩ => by rw [written, ofJson, writtenFields_whole fields]

/-- Items that are written to their end are the items. -/
theorem writtenItems_whole : (items : List Json) → writtenItems .whole items = ofItems items
  | [] => by rw [writtenItems, ofItems]
  | item :: rest => by
    rw [writtenItems, ofItems, written_whole item, writtenItems_whole rest]

/-- Fields that are written to their end are the fields. -/
theorem writtenFields_whole :
    (fields : List (String × Json)) → writtenFields .whole fields = ofFields fields
  | [] => by rw [writtenFields, ofFields]
  | (k, v) :: rest => by
    rw [writtenFields, ofFields, written_whole v, writtenFields_whole rest]

end

variable {ending : Ending}

mutual

/-- How lists and maps end does not matter to what a value is, unless there is a fault. -/
theorem toJson_written (h : ending.fault? = none) :
    (j : Json) → (written ending j).toJson = (ofJson j).toJson
  | .null | .bool _ | .number _ | .string _ => by simp [written, ofJson]
  | .array items => by
    rw [written, ofJson, toJson, toJson, toItems_written h items, h]
    rfl
  | .object ⟨fields⟩ => by
    rw [written, ofJson, toJson, toJson, toFields_written h fields, h]
    rfl

/-- The items that were written are read, however the text goes on after them. -/
theorem toItems_written (h : ending.fault? = none) :
    (items : List Json) → toItems (writtenItems ending items) = toItems (ofItems items)
  | [] => by rw [writtenItems, ofItems]
  | item :: rest => by
    rw [writtenItems, ofItems, toItems, toItems, toJson_written h item, toItems_written h rest]

/-- The fields that were written are read, however the text goes on after them. -/
theorem toFields_written (h : ending.fault? = none) :
    (fields : List (String × Json)) → ∀ {acc : OrderedMap Json},
      toFields (writtenFields ending fields) acc = toFields (ofFields fields) acc
  | [], _ => by rw [writtenFields, ofFields]
  | (k, v) :: rest, _ => by
    simp only [writtenFields, ofFields, toFields, toJson_written h v, toFields_written h rest]

end

mutual

/-- A value is read as a whole without a fault. -/
theorem readFault?_written (h : ending.fault? = none) :
    (j : Json) → (written ending j).readFault? = none
  | .null | .bool _ | .number _ | .string _ => by simp [written, readFault?]
  | .array items => by simp [written, readFault?, readItems?_written h items, h]
  | .object ⟨fields⟩ => by simp [written, readFault?, readEntries?_written h fields, h]

/-- Items that are written have nothing that stops a reader. -/
theorem readItems?_written (h : ending.fault? = none) :
    (items : List Json) → readItems? (writtenItems ending items) = none
  | [] => by rw [writtenItems, readItems?]
  | item :: rest => by
    simp [writtenItems, readItems?, readFault?_written h item, readItems?_written h rest]

/-- Fields that are written have nothing that stops a reader. -/
theorem readEntries?_written (h : ending.fault? = none) :
    (fields : List (String × Json)) → readEntries? (writtenFields ending fields) = none
  | [] => by rw [writtenFields, readEntries?]
  | (_, value) :: rest => by
    simp [writtenFields, readEntries?, readFault?_written h value, readEntries?_written h rest]

end

/-! ### Decimal digits -/

/-- A text that begins with the end of an item or of a field, or that is empty. -/
inductive Delimited : List Char → Prop where
  | nil : Delimited []
  | comma (rest : List Char) : Delimited (',' :: rest)
  | bracket (rest : List Char) : Delimited (']' :: rest)
  | brace (rest : List Char) : Delimited ('\x7d' :: rest)

/-- A number is written in digits. -/
theorem isDigit_of_mem_toDigits {n : Nat} {c : Char} (h : c ∈ Nat.toDigits 10 n) :
  isDigit c = true
  := by
  have hdigit := Nat.isDigit_of_mem_toDigits (by omega) (by omega) h
  simpa [isDigit, Char.isDigit, Char.le_def] using hdigit

/-- The digits of a number are told from what comes after them. -/
theorem takeWhile_toDigits (n : Nat) {rest : List Char} (hrest : Delimited rest) :
  (Nat.toDigits 10 n ++ rest).takeWhile isDigit = Nat.toDigits 10 n
    ∧ (Nat.toDigits 10 n ++ rest).dropWhile isDigit = rest
  := by
  have hstop : rest.takeWhile isDigit = [] ∧ rest.dropWhile isDigit = rest := by
    cases hrest <;> exact ⟨rfl, rfl⟩
  rw [List.takeWhile_append_of_pos fun c => isDigit_of_mem_toDigits,
    List.dropWhile_append_of_pos fun c => isDigit_of_mem_toDigits, hstop.1, hstop.2,
    List.append_nil]
  exact ⟨rfl, rfl⟩

/-- A positive number is written without leading zeros. -/
theorem head?_toDigits {n : Nat} (h : 0 < n) :
  (Nat.toDigits 10 n).head? ≠ some '0'
  := by
  induction n using Nat.strongRecOn with
  | ind n ih =>
    rw [Nat.toDigits_eq_if (by omega)]
    split
    · next hlt =>
      have hdigit : ∀ m < 10, 0 < m → m.digitChar ≠ '0' := by decide
      simpa using hdigit n hlt h
    · rw [List.head?_append, Option.or_of_isSome (by simp [Nat.toDigits_ne_nil])]
      exact ih (n / 10) (by omega) (by omega)

/-- No number is written with a zero before other digits. -/
theorem toDigits_ne_zero_cons {n : Nat} {c : Char} {cs : List Char} :
  Nat.toDigits 10 n ≠ '0' :: c :: cs
  := by
  intro h
  cases n with
  | zero => cases h
  | succ n => exact head?_toDigits (Nat.succ_pos n) (congrArg List.head? h)

/-- Further digits make a number no smaller. -/
theorem le_foldl_digits (digits : List Char) (n : Nat) :
  n ≤ digits.foldl (fun n d => n * 10 + digitValue d) n
  := by
  induction digits generalizing n with
  | nil => exact Nat.le_refl n
  | cons d rest ih => exact Nat.le_trans (by omega) (ih (n * 10 + digitValue d))

/-- All digits of a number that fits are taken. -/
theorem takeFitting_of_le {digits : List Char} {significand : Nat}
    (h : digits.foldl (fun n d => n * 10 + digitValue d) significand ≤ Binary64.maxSignificand) :
  takeFitting significand digits
    = (digits.foldl (fun n d => n * 10 + digitValue d) significand, [])
  := by
  induction digits generalizing significand with
  | nil => rfl
  | cons d rest ih =>
    rw [List.foldl_cons] at h ⊢
    rw [takeFitting, if_pos (Nat.le_trans (le_foldl_digits rest _) h), ih h]

/-- The digits of a number add up to it. -/
theorem foldl_toDigits (n : Nat) :
  (Nat.toDigits 10 n).foldl (fun n d => n * 10 + digitValue d) 0 = n
  := by
  have hvalue := Nat.ofDigitChars_ten_toDigits (n := n)
  simp only [Nat.ofDigitChars_eq_foldl, Nat.mul_comm 10] at hvalue
  exact hvalue

/-- A number of 64 bits is read from all of its digits. -/
theorem takeFitting_toDigits {n : Nat} (h : n ≤ maxNat64) :
  takeFitting 0 (Nat.toDigits 10 n) = (n, [])
  := by
  rw [takeFitting_of_le] <;> rw [foldl_toDigits]
  exact h

/-! ### Numbers -/

/-- A number is read that has neither a fraction nor an exponent. -/
theorem readNumberText_whole {cs digits rest : List Char}
    (htake : cs.takeWhile isDigit = digits) (hdrop : cs.dropWhile isDigit = rest)
    (hdigits : digits ≠ []) (hzero : ∀ c cs, digits ≠ '0' :: c :: cs) (hrest : Delimited rest) :
  readNumberText cs = .ok (⟨false, digits, none, none⟩, rest)
    ∧ readNumberText ('-' :: cs) = .ok (⟨true, digits, none, none⟩, rest)
  := by
  have hcs : ¬cs.head? = some '-' := by
    intro hcs
    obtain ⟨cs, rfl⟩ := List.head?_eq_some_iff.mp hcs
    exact hdigits htake.symm
  obtain ⟨d, ds, rfl⟩ := List.exists_cons_of_ne_nil hdigits
  constructor
  · unfold readNumberText
    simp only [hcs, decide_false, if_false, htake, hdrop]
    cases hrest <;> rfl
  · unfold readNumberText
    simp only [List.head?_cons, decide_true, if_true, List.drop_one, List.tail_cons, htake, hdrop]
    cases hrest <;> rfl

/-- The digits of a number are read up to what ends them, with and without a sign. -/
theorem readNumberText_toDigits (n : Nat) {rest : List Char} (hrest : Delimited rest) :
  readNumberText (Nat.toDigits 10 n ++ rest)
      = .ok (⟨false, Nat.toDigits 10 n, none, none⟩, rest)
    ∧ readNumberText ('-' :: (Nat.toDigits 10 n ++ rest))
      = .ok (⟨true, Nat.toDigits 10 n, none, none⟩, rest)
  := by
  obtain ⟨htake, hdrop⟩ := takeWhile_toDigits n hrest
  exact readNumberText_whole htake hdrop Nat.toDigits_ne_nil
    (fun _ _ => toDigits_ne_zero_cons) hrest

/-- The digits of a number in range have it as value. -/
theorem value_toDigits {n : Nat} (h : n ≤ maxNat64) :
  (⟨false, Nat.toDigits 10 n, none, none⟩ : NumberText).value = some (.int n)
  := by
  simp [NumberText.value, takeFitting_toDigits h]

/-- The digits of a number in range after a sign have its negative as value. -/
theorem value_neg_toDigits {n : Nat} (hpos : 0 < n) (h : minInt64 ≤ -(n : Int)) :
  (⟨true, Nat.toDigits 10 n, none, none⟩ : NumberText).value = some (.int (-n))
  := by
  have hbound : n ≤ maxNat64 := by
    rw [minInt64] at h
    rw [maxNat64]
    omega
  simp [NumberText.value, takeFitting_toDigits hbound, Nat.ne_of_gt hpos, h]

end Source

open Source

/-- From the text of a number the number is read, where an item or a field ends after it. -/
def Number.Legible (n : Number) : Prop :=
  ∀ rest, Delimited rest →
    ∃ parts, readNumberText (n.text.toList ++ rest) = .ok (parts, rest) ∧ parts.value = some n

/-- Every integer of 64 bits is legible, with a sign or without one. -/
theorem Number.legible_int {n : Int} (hmin : minInt64 ≤ n) (hmax : n ≤ maxNat64) :
  (int n).Legible
  := by
  intro rest hrest
  cases n with
  | ofNat m =>
    have htext : (int (.ofNat m)).text.toList = Nat.toDigits 10 m := String.toList_ofList
    refine ⟨_, ?_, value_toDigits (Int.ofNat_le.mp hmax)⟩
    rw [htext]
    exact (readNumberText_toDigits m hrest).1
  | negSucc m =>
    have htext : (int (.negSucc m)).text.toList = '-' :: Nat.toDigits 10 (m + 1) :=
      String.toList_append.trans (congrArg ('-' :: ·) String.toList_ofList)
    refine ⟨_, ?_, value_neg_toDigits (Nat.succ_pos m) hmin⟩
    rw [htext]
    exact (readNumberText_toDigits (m + 1) hrest).2

namespace Source

/-- A number begins with a sign or a digit. -/
theorem exists_of_readNumberText {cs rest : List Char} {parts : NumberText}
    (h : readNumberText cs = .ok (parts, rest)) :
  ∃ c cs', cs = c :: cs' ∧ (c = '-' ∨ isDigit c = true)
  := by
  cases cs with
  | nil => cases h
  | cons c cs =>
    refine ⟨c, cs, rfl, Classical.byContradiction fun hc => ?_⟩
    obtain ⟨hsign, hdigit⟩ := not_or.mp hc
    unfold readNumberText at h
    simp [hsign, hdigit] at h
    cases h

/-- The text of a number begins with a sign or a digit. -/
theorem exists_toList_text {n : Number} (h : n.Legible) :
  ∃ c cs, n.text.toList = c :: cs ∧ (c = '-' ∨ isDigit c = true)
  := by
  obtain ⟨parts, hread, -⟩ := h [] .nil
  rw [List.append_nil] at hread
  exact exists_of_readNumberText hread

/-- What begins with a sign or a digit is a number, and no other value. -/
theorem not_mem_of_begins {c : Char} (h : c = '-' ∨ isDigit c = true) :
  c ∉ ['"', '[', ']', '\x7b', 'n', 't', 'f', ' ', '\n', '\t', '\r']
  := by
  intro hmem
  simp only [List.mem_cons, List.not_mem_nil, or_false] at hmem
  obtain rfl | rfl | rfl | rfl | rfl | rfl | rfl | rfl | rfl | rfl | rfl := hmem <;>
    revert h <;> decide

/-- No number begins with a blank. -/
theorem isBlank_of_begins {c : Char} (h : c = '-' ∨ isDigit c = true) :
  isBlank c = false
  := by
  have hmem := not_mem_of_begins h
  simp only [List.mem_cons, not_or] at hmem
  simp [isBlank, hmem]

theorem skipBlank_cons {c : Char} (h : isBlank c = false) (cs : List Char) :
  skipBlank (c :: cs) = c :: cs
  := List.dropWhile_cons_of_neg (by simp [h])

/-- A number is read back, up to what ends it. -/
theorem readValue_number {n : Number} (h : n.Legible) {rest : List Char}
    (hrest : Delimited rest) (fuel depth : Nat) :
  readValue (fuel + 1) depth (n.text.toList ++ rest) = (.number n, some rest)
  := by
  obtain ⟨parts, hread, hvalue⟩ := h rest hrest
  obtain ⟨c, cs, hcs, hc⟩ := exists_toList_text h
  have hmem := not_mem_of_begins hc
  simp only [List.mem_cons, not_or] at hmem
  rw [hcs, List.cons_append] at hread ⊢
  rw [readValue, skipBlank_cons (isBlank_of_begins hc)]
  simp [hmem, hc, hread, hvalue]

/-! ### Strings -/

theorem hexValue?_hexDigit : ∀ n < 16, hexValue? (hexDigit n) = some n := by decide

/-- The escape of a control character is read back. -/
theorem hexUnit_control {n : Nat} (h : n < 32) (rest : List Char) :
  hexUnit ('0' :: '0' :: hexDigit (n / 16) :: hexDigit (n % 16) :: rest) = .ok (n, rest)
  := by
  rw [hexUnit, hexValue?_hexDigit _ (by omega), hexValue?_hexDigit _ (by omega)]
  simp [hexValue?]
  omega

/-- A character is read however it is escaped. -/
theorem readString_escapeChar (fuel : Nat) (c : Char) (rest : List Char) :
  readString (fuel + 1) (escapeChar c ++ rest) = (readString fuel rest).cons c
  := by
  rw [escapeChar]
  split
  · next h => subst h; rfl
  split
  · next h => subst h; rfl
  split
  · next h => subst h; rfl
  split
  · next h => subst h; rfl
  split
  · next h => subst h; rfl
  split
  · next h =>
    obtain rfl : c = Char.ofNat 8 := by rw [← h, Char.ofNat_toNat]
    rfl
  split
  · next h =>
    obtain rfl : c = Char.ofNat 12 := by rw [← h, Char.ofNat_toNat]
    rfl
  split
  · next h =>
    have hhigh : isHighHalf c.toNat = false := by simp [isHighHalf]; omega
    have hlow : isLowHalf c.toNat = false := by simp [isLowHalf]; omega
    simp [readString, hexUnit_control h, hhigh, hlow, Char.ofNat_toNat]
  · next hquote hbackslash _ _ _ _ _ hcontrol =>
    simp [readString, hquote, hbackslash, hcontrol]

/-- A string is read up to the quote that closes it. -/
theorem readString_flatMap {fuel : Nat} {cs : List Char} (h : cs.length < fuel)
    (rest : List Char) :
  readString fuel (cs.flatMap escapeChar ++ '"' :: rest) = ⟨cs, false, .ok rest⟩
  := by
  induction cs generalizing fuel with
  | nil =>
    cases fuel with
    | zero => cases h
    | succ fuel => rfl
  | cons c cs ih =>
    cases fuel with
    | zero => cases h
    | succ fuel =>
      rw [List.flatMap_cons, List.append_assoc, readString_escapeChar,
        ih (Nat.lt_of_succ_lt_succ h)]
      rfl

/-- Escaped text is no shorter. -/
theorem length_le_length_flatMap (cs : List Char) :
  cs.length ≤ (cs.flatMap escapeChar).length
  := by
  induction cs with
  | nil => exact Nat.le_refl 0
  | cons c cs ih =>
    have hpos : 0 < (escapeChar c).length := by
      unfold escapeChar
      repeat' split
      all_goals simp
    rw [List.flatMap_cons, List.length_append, List.length_cons]
    omega

/-- The text that is left bounds the length of a string. -/
theorem readString_quoted (s : String) (rest : List Char) :
  readString ((s.toList.flatMap escapeChar ++ '"' :: rest).length + 1)
      (s.toList.flatMap escapeChar ++ '"' :: rest)
    = ⟨s.toList, false, .ok rest⟩
  := by
  refine readString_flatMap ?_ rest
  have hlength := length_le_length_flatMap s.toList
  rw [List.length_append]
  omega

/-- A quoted text is the escaped characters between quotation marks. -/
theorem toList_quote (s : String) :
  (quote s).toList = '"' :: (s.toList.flatMap escapeChar ++ ['"'])
  := by
  simp [quote]

/-- A literal is read character by character. -/
theorem readLiteral_append (value : Source) (word rest : List Char) :
  readLiteral value word (word ++ rest) = (value, some rest)
  := by
  induction word with
  | nil => rfl
  | cons w word ih => rw [List.cons_append, readLiteral, if_pos rfl, ih]

/-! ### Lists and maps -/

/-- A value that can be read within `depth` lists and maps: the numbers in it are legible, and it
is not nested too deeply. -/
inductive Legible : Nat → Json → Prop where
  | null (depth : Nat) : Legible depth .null
  | bool (depth : Nat) (b : Bool) : Legible depth (.bool b)
  | number (depth : Nat) {n : Number} (number : n.Legible) : Legible depth (.number n)
  | string (depth : Nat) (s : String) : Legible depth (.string s)
  | array {depth : Nat} {items : List Json} (shallow : depth < maxDepth)
      (each : ∀ j ∈ items, Legible (depth + 1) j) : Legible depth (.array items)
  | object {depth : Nat} {fields : OrderedMap Json} (shallow : depth < maxDepth)
      (each : ∀ e ∈ fields.entries, Legible (depth + 1) e.2) : Legible depth (.object fields)

/-- The text of a value begins neither with a blank nor with a bracket that closes. -/
theorem exists_toList_compact {depth : Nat} {j : Json} (h : Legible depth j) :
  ∃ c cs, (compact j).toList = c :: cs ∧ isBlank c = false ∧ c ≠ ']'
  := by
  cases h with
  | null => exact ⟨'n', _, rfl, by decide, by decide⟩
  | bool _ b => cases b <;> exact ⟨_, _, rfl, by decide, by decide⟩
  | number _ number =>
    obtain ⟨c, cs, hcs, hc⟩ := exists_toList_text number
    refine ⟨c, cs, by rw [compact, hcs], isBlank_of_begins hc, ?_⟩
    rintro rfl
    exact not_mem_of_begins hc (by simp)
  | string _ s => exact ⟨'"', _, by rw [compact, toList_quote], by decide, by decide⟩
  | array => exact ⟨'[', _, by rw [compact]; simp; rfl, by decide, by decide⟩
  | object => exact ⟨'\x7b', _, by rw [compact.eq_def]; simp; rfl, by decide, by decide⟩

theorem toList_compactItems_cons (item next : Json) (rest : List Json) :
  (compactItems (item :: next :: rest)).toList
    = (compact item).toList ++ ',' :: (compactItems (next :: rest)).toList
  := by
  simp [compactItems]

/-- Items begin with no blank and are not the end of a list. -/
theorem exists_toList_compactItems {depth : Nat} {item : Json} (h : Legible depth item)
    (rest : List Json) :
  ∃ c cs, (compactItems (item :: rest)).toList = c :: cs ∧ isBlank c = false ∧ c ≠ ']'
  := by
  obtain ⟨c, cs, hcs, hc⟩ := exists_toList_compact h
  cases rest with
  | nil => exact ⟨c, cs, by rw [compactItems, hcs], hc⟩
  | cons next rest => exact ⟨c, _, by rw [toList_compactItems_cons, hcs, List.cons_append], hc⟩

theorem toList_compactFields_singleton (k : String) (v : Json) :
  (compactFields [(k, v)]).toList
    = '"' :: (k.toList.flatMap escapeChar ++ '"' :: ':' :: (compact v).toList)
  := by
  simp [compactFields, toList_quote]

theorem toList_compactFields_cons (k : String) (v : Json) (next : String × Json)
    (rest : List (String × Json)) :
  (compactFields ((k, v) :: next :: rest)).toList
    = '"' :: (k.toList.flatMap escapeChar
        ++ '"' :: ':' :: ((compact v).toList ++ ',' :: (compactFields (next :: rest)).toList))
  := by
  simp [compactFields, toList_quote]

/-- Fields begin with the quotation mark of a key. -/
theorem exists_toList_compactFields (entry : String × Json) (rest : List (String × Json)) :
  ∃ cs, (compactFields (entry :: rest)).toList = '"' :: cs
  := by
  cases rest with
  | nil => exact ⟨_, toList_compactFields_singleton _ _⟩
  | cons next rest => exact ⟨_, toList_compactFields_cons _ _ _ _⟩

section

variable (fuel depth : Nat) (first : Bool) (cs : List Char)

theorem readItems_close :
  readItems (fuel + 1) depth first (']' :: cs) = ([], .closed, some cs)
  := by
  rw [readItems, skipBlank_cons (by decide)]
  rfl

theorem readItems_first {c : Char} (hblank : isBlank c = false) (hc : c ≠ ']') :
  readItems (fuel + 1) depth true (c :: cs) = readItem fuel depth (c :: cs)
  := by
  rw [readItems, skipBlank_cons hblank]
  split
  · contradiction
  · next heq => exact absurd (List.cons.inj heq).1 hc
  · next heq => rw [if_pos rfl, heq]

theorem readItems_next {c : Char} (hblank : isBlank c = false) (hc : c ≠ ']') :
  readItems (fuel + 1) depth false (',' :: c :: cs) = readItem fuel depth (c :: cs)
  := by
  rw [readItems, skipBlank_cons (by decide)]
  simp [skipBlank_cons hblank, hc]

theorem readEntries_close :
  readEntries (fuel + 1) depth first ('\x7d' :: cs) = ([], .closed, some cs)
  := by
  rw [readEntries, skipBlank_cons (by decide)]
  rfl

theorem readEntries_first :
  readEntries (fuel + 1) depth true ('"' :: cs) = readEntry fuel depth ('"' :: cs)
  := by
  rw [readEntries, skipBlank_cons (by decide)]
  rfl

theorem readEntries_next :
  readEntries (fuel + 1) depth false (',' :: '"' :: cs) = readEntry fuel depth ('"' :: cs)
  := by
  rw [readEntries, skipBlank_cons (by decide)]
  rfl

end

section

variable {fuel depth : Nat} {cs rest rest' : List Char} {value : Source} {ending : Ending}

/-- One item is read when its value is and the rest are. -/
theorem readItem_of_readValue {items : List Source}
    (hvalue : readValue fuel depth cs = (value, some rest))
    (hitems : readItems fuel depth false rest = (items, ending, some rest')) :
  readItem (fuel + 1) depth cs = (value :: items, ending, some rest')
  := by
  rw [readItem, hvalue]
  simp only [hitems]

/-- One field is read when its value is and the rest are. -/
theorem readEntry_of_readValue {k : String} {entries : List (String × Source)}
    (hvalue : readValue fuel depth cs = (value, some rest))
    (hentries : readEntries fuel depth false rest = (entries, ending, some rest')) :
  readEntry (fuel + 1) depth ('"' :: (k.toList.flatMap escapeChar ++ '"' :: ':' :: cs))
    = ((k, value) :: entries, ending, some rest')
  := by
  rw [readEntry]
  simp only [readString_quoted, skipBlank_cons (show isBlank ':' = false by decide), hvalue,
    hentries, String.ofList_toList, ne_eq, not_true_eq_false, if_false]

end

/-! ### Values -/

/-- From its text a value is read within `depth` lists and maps, where an item or a field ends
after it.  Two steps for each character are enough. -/
def ReadBack (depth : Nat) (j : Json) : Prop :=
  ∀ (fuel : Nat) (rest : List Char), 2 * (compact j).toList.length ≤ fuel + 1 → Delimited rest →
    readValue (fuel + 1) depth ((compact j).toList ++ rest) = (written .closed j, some rest)

variable {depth : Nat}

/-- Items that are each read back are read back in a list, up to its end. -/
theorem readItem_compactItems {item : Json} {items : List Json}
    (legible : ∀ j ∈ item :: items, Legible depth j) (each : ∀ j ∈ item :: items, ReadBack depth j)
    (fuel : Nat) (hfuel : 2 * (compactItems (item :: items)).toList.length ≤ fuel + 1)
    (rest : List Char) :
  readItem (fuel + 2) depth ((compactItems (item :: items)).toList ++ ']' :: rest)
    = (writtenItems .closed (item :: items), .closed, some rest)
  := by
  obtain ⟨hitem, hothers⟩ := List.forall_mem_cons.mp each
  replace legible := (List.forall_mem_cons.mp legible).2
  induction items generalizing item fuel with
  | nil =>
    rw [compactItems] at hfuel ⊢
    exact readItem_of_readValue (hitem _ _ hfuel (.bracket rest))
      (readItems_close fuel depth false rest)
  | cons next items ih =>
    obtain ⟨hnext, hothers'⟩ := List.forall_mem_cons.mp hothers
    obtain ⟨hlegible, legible'⟩ := List.forall_mem_cons.mp legible
    obtain ⟨c, cs, hcs, hblank, hc⟩ := exists_toList_compactItems hlegible items
    have hpos : 0 < (compactItems (next :: items)).toList.length := by
      rw [hcs]
      exact Nat.succ_pos _
    rw [toList_compactItems_cons, List.length_append, List.length_cons] at hfuel
    rw [toList_compactItems_cons, List.append_assoc, List.cons_append]
    refine readItem_of_readValue (hitem _ _ (by omega) (.comma _)) ?_
    obtain ⟨fuel, rfl⟩ : ∃ n, fuel = n + 2 := ⟨fuel - 2, by omega⟩
    have hread := ih hothers fuel (by omega) hnext hothers' legible'
    rw [hcs, List.cons_append] at hread ⊢
    rw [readItems_next _ _ _ hblank hc, hread, writtenItems]

/-- Fields whose values are each read back are read back in an object, up to its end. -/
theorem readEntry_compactFields {entry : String × Json} {fields : List (String × Json)}
    (each : ∀ e ∈ entry :: fields, ReadBack depth e.2) (fuel : Nat)
    (hfuel : 2 * (compactFields (entry :: fields)).toList.length ≤ fuel + 1) (rest : List Char) :
  readEntry (fuel + 2) depth ((compactFields (entry :: fields)).toList ++ '\x7d' :: rest)
    = (writtenFields .closed (entry :: fields), .closed, some rest)
  := by
  induction fields generalizing entry fuel with
  | nil =>
    obtain ⟨k, v⟩ := entry
    have hvalue : ReadBack depth v := each (k, v) (by simp)
    rw [toList_compactFields_singleton] at hfuel ⊢
    simp only [List.length_append, List.length_cons] at hfuel
    simp only [List.cons_append, List.append_assoc]
    exact readEntry_of_readValue (hvalue _ _ (by omega) (.brace rest))
      (readEntries_close fuel depth false rest)
  | cons next fields ih =>
    obtain ⟨k, v⟩ := entry
    have hvalue : ReadBack depth v := each (k, v) (by simp)
    rw [toList_compactFields_cons] at hfuel ⊢
    simp only [List.length_append, List.length_cons] at hfuel
    simp only [List.cons_append, List.append_assoc]
    refine readEntry_of_readValue (hvalue _ _ (by omega) (.comma _)) ?_
    obtain ⟨cs, hcs⟩ := exists_toList_compactFields next fields
    obtain ⟨fuel, rfl⟩ : ∃ n, fuel = n + 2 := ⟨fuel - 2, by omega⟩
    have hread := ih (List.forall_mem_cons.mp each).2 fuel (by omega)
    rw [hcs, List.cons_append] at hread ⊢
    rw [readEntries_next, hread]

theorem toList_compact_array (items : List Json) (rest : List Char) :
  (compact (.array items)).toList ++ rest = '[' :: ((compactItems items).toList ++ ']' :: rest)
  := by
  simp [compact]

theorem toList_compact_object (fields : List (String × Json)) (rest : List Char) :
  (compact (.object ⟨fields⟩)).toList ++ rest
    = '\x7b' :: ((compactFields fields).toList ++ '\x7d' :: rest)
  := by
  simp [compact]

theorem bounded_of_lt (h : depth < maxDepth) (s : Source) :
  bounded (depth + 1) s = s
  := if_neg (Nat.not_lt.mpr h)

/-- A list within the depth is read back if its items are. -/
theorem readBack_array {items : List Json} (shallow : depth < maxDepth)
    (legible : ∀ j ∈ items, Legible (depth + 1) j) (each : ∀ j ∈ items, ReadBack (depth + 1) j) :
  ReadBack depth (.array items)
  := by
  intro fuel rest hfuel _
  have hlength := congrArg List.length (toList_compact_array items [])
  simp only [List.length_append, List.length_cons, List.length_nil] at hlength
  obtain ⟨fuel, rfl⟩ : ∃ n, fuel = n + 3 := ⟨fuel - 3, by omega⟩
  have hread : readItems (fuel + 3) (depth + 1) true ((compactItems items).toList ++ ']' :: rest)
      = (writtenItems .closed items, .closed, some rest) := by
    cases items with
    | nil => exact readItems_close _ (depth + 1) true rest
    | cons item items =>
      obtain ⟨c, cs, hcs, hblank, hc⟩ := exists_toList_compactItems (legible item (by simp)) items
      have hread := readItem_compactItems legible each fuel (by omega) rest
      rw [hcs, List.cons_append] at hread ⊢
      rw [readItems_first _ _ _ hblank hc, hread]
  rw [toList_compact_array, readValue, skipBlank_cons (by decide)]
  simp only [hread, bounded_of_lt shallow, written]

/-- An object within the depth is read back if its values are. -/
theorem readBack_object {fields : OrderedMap Json} (shallow : depth < maxDepth)
    (each : ∀ e ∈ fields.entries, ReadBack (depth + 1) e.2) :
  ReadBack depth (.object fields)
  := by
  intro fuel rest hfuel _
  obtain ⟨fields⟩ := fields
  have hlength := congrArg List.length (toList_compact_object fields [])
  simp only [List.length_append, List.length_cons, List.length_nil] at hlength
  obtain ⟨fuel, rfl⟩ : ∃ n, fuel = n + 3 := ⟨fuel - 3, by omega⟩
  have hread : readEntries (fuel + 3) (depth + 1) true
      ((compactFields fields).toList ++ '\x7d' :: rest)
      = (writtenFields .closed fields, .closed, some rest) := by
    cases fields with
    | nil => exact readEntries_close _ (depth + 1) true rest
    | cons entry fields =>
      obtain ⟨cs, hcs⟩ := exists_toList_compactFields entry fields
      have hread := readEntry_compactFields each fuel (by omega) rest
      rw [hcs, List.cons_append] at hread ⊢
      rw [readEntries_first, hread]
  rw [toList_compact_object, readValue, skipBlank_cons (by decide)]
  simp only [hread, bounded_of_lt shallow, written]

/-- A legible value is read from its text, with all lists and maps closed. -/
theorem Legible.readBack {j : Json} (h : Legible depth j) :
  ReadBack depth j
  := by
  induction h with
  | array shallow legible ih => exact readBack_array shallow legible ih
  | object shallow _ ih => exact readBack_object shallow ih
  | number depth number => exact fun fuel rest _ hrest => readValue_number number hrest fuel depth
  | string _ s =>
    intro fuel rest _ _
    rw [compact, toList_quote, List.cons_append, List.append_assoc, List.singleton_append,
      readValue, skipBlank_cons (by decide)]
    simp only [readString_quoted, String.ofList_toList, written, Bool.false_eq_true, if_false]
  | null =>
    intro fuel rest _ _
    change readValue _ _ ('n' :: (['u', 'l', 'l'] ++ rest)) = _
    rw [readValue, skipBlank_cons (by decide)]
    exact readLiteral_append _ _ rest
  | bool _ b =>
    intro fuel rest _ _
    cases b with
    | true =>
      change readValue _ _ ('t' :: (['r', 'u', 'e'] ++ rest)) = _
      rw [readValue, skipBlank_cons (by decide)]
      exact readLiteral_append _ _ rest
    | false =>
      change readValue _ _ ('f' :: (['a', 'l', 's', 'e'] ++ rest)) = _
      rw [readValue, skipBlank_cons (by decide)]
      exact readLiteral_append _ _ rest

/-- From the text of a legible value the value is read, and nothing comes after it. -/
theorem ofText_compact {j : Json} (h : Legible 0 j) :
  ofText j.compact = (written .closed j, false)
  := by
  have hread := h.readBack (4 * j.compact.toList.length + 3) [] (by omega) .nil
  rw [List.append_nil] at hread
  rw [ofText]
  simp only [hread]
  rfl

end Source

end Statechart
