import Statechart.Proofs.Legibility
import Statechart.Timestamp

/-!
# Points in time that are read back

A day of the calendar is found from the number of days since the start of 1970 by dividing that
number into cycles of four hundred years, and these into years; counting the days up to it gives
the number again (`Timestamp.Date.toDays_ofDays`).  So the text of a point in time denotes that
point, if its year is one of the calendar (`Timestamp.ofText_text`).
-/

namespace Statechart

namespace Timestamp

/-! ### Days of a cycle -/

namespace Date

/-- A day in a cycle of four hundred years that begins in March: a day of one of the four years in
a span, of which a century has twenty-five.  The last year of a span has a leap day at its end,
except in the last span of a century that is not the last one. -/
structure CycleDay where
  century : Int
  span : Int
  year : Int
  day : Int
  century_mem : 0 ≤ century ∧ century ≤ 3
  span_mem : 0 ≤ span ∧ span ≤ 24
  year_mem : 0 ≤ year ∧ year ≤ 3
  day_mem : 0 ≤ day ∧ (day ≤ 364 ∨ day = 365 ∧ year = 3 ∧ (span ≤ 23 ∨ century = 3))

namespace CycleDay

variable (x : CycleDay)

/-- The number of years in the cycle before the day. -/
def yearOfCycle : Int := 100 * x.century + 4 * x.span + x.year

/-- The number of days in the cycle before the day. -/
def dayOfCycle : Int := 36524 * x.century + 1461 * x.span + 365 * x.year + x.day

theorem yearOfCycle_mem :
  0 ≤ x.yearOfCycle ∧ x.yearOfCycle ≤ 399
  := by
  obtain ⟨century, span, year, day, hcentury, hspan, hyear, -⟩ := x
  simp only [yearOfCycle]
  omega

/-- A year has 365 days, and each fourth one a leap day, but not each hundredth. -/
theorem dayOfCycle_eq :
  x.dayOfCycle = x.yearOfCycle * 365 + x.yearOfCycle / 4 - x.yearOfCycle / 100 + x.day
  := by
  obtain ⟨century, span, year, day, hcentury, hspan, hyear, -⟩ := x
  simp only [dayOfCycle, yearOfCycle]
  have hfour : (100 * century + 4 * span + year) / 4 = 25 * century + span := by omega
  have hhundred : (100 * century + 4 * span + year) / 100 = century := by omega
  rw [hfour, hhundred]
  omega

/-- The years before a day are counted in years of 365 days, once the leap days are left out. -/
theorem yearOfCycle_eq {d : Int} (h : x.dayOfCycle = d) :
  (d - d / 1460 + d / 36524 - d / 146096) / 365 = x.yearOfCycle
  := by
  obtain ⟨century, span, year, day, hcentury, hspan, hyear, hday⟩ := x
  replace h : 36524 * century + 1461 * span + 365 * year + day = d := h
  have hcenturies : d / 36524 - d / 146096 = century := by
    by_cases hend : d = 146096
    · omega
    · have hcycle : d / 146096 = 0 := by omega
      have hquotient : d / 36524 = century := by omega
      omega
  have hspans : d / 1460
      = 25 * century + span + (24 * century + span + 365 * year + day) / 1460 := by
    omega
  have hlast : (24 * century + span + 365 * year + day) / 1460 = 0 ∧ day ≤ 364
      ∨ (24 * century + span + 365 * year + day) / 1460 = 1 ∧ 1 ≤ day := by
    omega
  simp only [yearOfCycle]
  omega

/-- The leap day belongs to a year that is leap. -/
theorem isLeap_of_day (h : x.day = 365) (cycle : Int) :
  isLeap (x.yearOfCycle + cycle * 400 + 1) = true
  := by
  obtain ⟨century, span, year, day, hcentury, hspan, hyear, hday⟩ := x
  obtain rfl : day = 365 := h
  obtain ⟨rfl, hlast⟩ : year = 3 ∧ (span ≤ 23 ∨ century = 3) := by omega
  simp only [isLeap, yearOfCycle, Bool.and_eq_true, Bool.or_eq_true, beq_iff_eq, bne_iff_ne]
  omega

end CycleDay

/-- Each day of a cycle is in a year of a span of a century. -/
theorem exists_cycleDay {d : Int} (h0 : 0 ≤ d) (h : d < 146097) :
  ∃ x : CycleDay, x.dayOfCycle = d
  := by
  have hcentury : ∃ century r : Int, d = 36524 * century + r ∧ (0 ≤ century ∧ century ≤ 3)
      ∧ 0 ≤ r ∧ (r ≤ 36523 ∨ r = 36524 ∧ century = 3) := by
    by_cases hend : d = 146096
    · exact ⟨3, 36524, by omega, by omega, by omega, by omega⟩
    · exact ⟨d / 36524, d % 36524, by omega, by omega, by omega, by omega⟩
  obtain ⟨century, r, rfl, hcentury, hr0, hr⟩ := hcentury
  have hyear : ∃ year day : Int, r % 1461 = 365 * year + day ∧ (0 ≤ year ∧ year ≤ 3)
      ∧ 0 ≤ day ∧ (day ≤ 364 ∨ day = 365 ∧ year = 3) := by
    by_cases hend : r % 1461 = 1460
    · exact ⟨3, 365, by omega, by omega, by omega, by omega⟩
    · exact ⟨r % 1461 / 365, r % 1461 % 365, by omega, by omega, by omega, by omega⟩
  obtain ⟨year, day, hrest, hyear, hday0, hday⟩ := hyear
  refine ⟨⟨century, r / 1461, year, day, hcentury, ?_, hyear, hday0, ?_⟩, ?_⟩
  · omega
  · omega
  · simp only [CycleDay.dayOfCycle]
    omega

/-! ### Days of a year -/

/-- The day with a number in a year that begins in March. -/
def ofDayOfYear (year dayOfYear : Int) : Date :=
  let month := (5 * dayOfYear + 2) / 153
  let day := dayOfYear - (153 * month + 2) / 5 + 1
  let month := if month < 10 then month + 3 else month - 9
  ⟨if month ≤ 2 then year + 1 else year, month.toNat, day.toNat⟩

section

variable {year day : Int}

theorem month_cases (h0 : 0 ≤ day) (h : day ≤ 365) :
  let month := (5 * day + 2) / 153
  month = 0 ∨ month = 1 ∨ month = 2 ∨ month = 3 ∨ month = 4 ∨ month = 5 ∨ month = 6
    ∨ month = 7 ∨ month = 8 ∨ month = 9 ∨ month = 10 ∨ month = 11
  := by
  omega

/-- The days up to a day are those of the cycles and years before it, and those of its year. -/
theorem toDays_ofDayOfYear (h0 : 0 ≤ day) (h : day ≤ 365) :
  (ofDayOfYear year day).toDays
    = year / 400 * 146097 + (year % 400 * 365 + year % 400 / 4 - year % 400 / 100 + day) - 719468
  := by
  obtain h | h | h | h | h | h | h | h | h | h | h | h := month_cases h0 h <;>
    simp [ofDayOfYear, toDays, h] <;> omega

/-- The day is one of its month, which has a leap day if the year is leap. -/
theorem day_ofDayOfYear (h0 : 0 ≤ day) (h : day ≤ 364 ∨ day = 365 ∧ isLeap (year + 1) = true) :
  let date := ofDayOfYear year day
  (1 ≤ date.month ∧ date.month ≤ 12) ∧ 1 ≤ date.day ∧ date.day ≤ monthLength date.year date.month
  := by
  obtain h | ⟨rfl, hleap⟩ := h
  · obtain hp | hp | hp | hp | hp | hp | hp | hp | hp | hp | hp | hp :=
      month_cases h0 (by omega) <;>
      simp [ofDayOfYear, monthLength, hp] <;> (try split) <;> omega
  · simp [ofDayOfYear, monthLength, hleap]

end

/-- A day is one of a year that begins in March. -/
theorem exists_ofDays_eq (days : Int) :
  ∃ year day : Int, ofDays days = ofDayOfYear year day
    ∧ 0 ≤ day ∧ (day ≤ 364 ∨ day = 365 ∧ isLeap (year + 1) = true)
    ∧ days + 719468
      = year / 400 * 146097 + (year % 400 * 365 + year % 400 / 4 - year % 400 / 100 + day)
  := by
  have hsplit := Int.mul_ediv_add_emod (days + 719468) 146097
  obtain ⟨x, hx⟩ := exists_cycleDay (d := (days + 719468) % 146097) (by omega) (by omega)
  obtain ⟨hyear0, hyear⟩ := x.yearOfCycle_mem
  have hyears := x.yearOfCycle_eq hx
  have hday : (days + 719468) % 146097
      - (365 * x.yearOfCycle + x.yearOfCycle / 4 - x.yearOfCycle / 100) = x.day := by
    rw [← hx, x.dayOfCycle_eq]
    omega
  refine ⟨x.yearOfCycle + (days + 719468) / 146097 * 400, x.day, ?_, x.day_mem.1, ?_, ?_⟩
  · rw [ofDays]
    simp only [hyears, hday]
    rfl
  · exact x.day_mem.2.imp_right fun h => ⟨h.1, x.isLeap_of_day h.1 _⟩
  · rw [← hx] at hsplit
    generalize (days + 719468) / 146097 = cycle at hsplit ⊢
    have hcycle : (x.yearOfCycle + cycle * 400) / 400 = cycle := by omega
    have hrest : (x.yearOfCycle + cycle * 400) % 400 = x.yearOfCycle := by omega
    rw [hcycle, hrest, ← hsplit, x.dayOfCycle_eq]
    omega

/-- The number of days up to a day is the number that it was found from. -/
theorem toDays_ofDays (days : Int) :
  (ofDays days).toDays = days
  := by
  obtain ⟨year, day, hdate, h0, hday, hdays⟩ := exists_ofDays_eq days
  rw [hdate, toDays_ofDayOfYear h0 (by omega)]
  omega

/-- A day that is found is one of the calendar, if its year is. -/
theorem isValid_ofDays {days : Int} (hmin : -262143 ≤ (ofDays days).year)
    (hmax : (ofDays days).year ≤ 262142) :
  (ofDays days).isValid = true
  := by
  obtain ⟨year, day, hdate, h0, hday, -⟩ := exists_ofDays_eq days
  obtain ⟨hmonth, hfirst, hlast⟩ := day_ofDayOfYear h0 hday
  rw [hdate] at hmin hmax ⊢
  simp [isValid, hmonth, hfirst, hlast, hmin, hmax]

end Date

/-! ### Digits -/

theorem toList_padded (width n : Nat) :
  (padded width n).toList
    = List.replicate (width - (Nat.toDigits 10 n).length) '0' ++ Nat.toDigits 10 n
  := by
  have hdigits : (toString n).toList = Nat.toDigits 10 n := String.toList_ofList
  rw [padded, String.toList_append, String.toList_ofList, ← String.length_toList, hdigits]

theorem isDigit_of_mem_padded {width n : Nat} {c : Char} (h : c ∈ (padded width n).toList) :
  isDigit c = true
  := by
  rw [toList_padded, List.mem_append] at h
  obtain h | h := h
  · obtain ⟨-, rfl⟩ := List.mem_replicate.mp h
    decide
  · exact Source.isDigit_of_mem_toDigits h

theorem padded_ne_nil (width n : Nat) :
  (padded width n).toList ≠ []
  := by
  simp [toList_padded, Nat.toDigits_ne_nil]

/-- A number that does not have more digits is padded to a width. -/
theorem length_padded {width n : Nat} (h : (Nat.toDigits 10 n).length ≤ width) :
  (padded width n).toList.length = width
  := by
  rw [toList_padded, List.length_append, List.length_replicate]
  omega

/-- Zeros before a number do not count. -/
theorem number_padded (width n : Nat) :
  number (padded width n).toList = n
  := by
  have hzeros (k : Nat) :
      (List.replicate k '0').foldl (fun n d => n * 10 + (d.toNat - 48)) 0 = 0 := by
    induction k with
    | zero => rfl
    | succ k ih => exact ih
  rw [number, toList_padded, List.foldl_append, hzeros]
  exact Source.foldl_toDigits n

/-! ### Reading -/

/-- A text at whose head there is no digit. -/
def EndsNumber (cs : List Char) : Prop := ∀ c ∈ cs.head?, isDigit c = false

theorem takeWhile_digits {digits rest : List Char} (hdigits : ∀ c ∈ digits, isDigit c = true)
    (hrest : EndsNumber rest) :
  (digits ++ rest).takeWhile isDigit = digits
  := by
  rw [List.takeWhile_append_of_pos hdigits]
  cases rest with
  | nil => simp
  | cons c rest => rw [List.takeWhile_cons_of_neg (by simp [hrest c rfl]), List.append_nil]

theorem isWhitespace_of_isDigit {c : Char} (h : isDigit c = true) :
  c.isWhitespace = false
  := by
  rw [Bool.eq_false_iff, Char.isWhitespace]
  intro hblank
  simp only [Bool.or_eq_true, decide_eq_true_eq] at hblank
  obtain ((rfl | rfl) | rfl) | rfl := hblank <;> cases h

theorem trim_digits {digits : List Char} (hdigits : ∀ c ∈ digits, isDigit c = true)
    (hne : digits ≠ []) (rest : List Char) :
  trim (digits ++ rest) = digits ++ rest
  := by
  obtain ⟨d, ds, rfl⟩ := List.exists_cons_of_ne_nil hne
  refine List.dropWhile_cons_of_neg ?_
  simp [isWhitespace_of_isDigit (hdigits d (by simp))]

/-- A number is read from as many of its digits as may be taken. -/
theorem readNumber_append {width : Nat} {digits rest : List Char}
    (hdigits : ∀ c ∈ digits, isDigit c = true) (hne : digits ≠ [])
    (htake : ((digits ++ rest).takeWhile isDigit).take width = digits) :
  readNumber width (digits ++ rest) = some (number digits, rest)
  := by
  rw [readNumber, trim_digits hdigits hne]
  simp only [htake, List.isEmpty_iff, hne, if_false, List.drop_left]

theorem readNumber_padded {width n : Nat} (h : (Nat.toDigits 10 n).length ≤ width)
    (rest : List Char) :
  readNumber width ((padded width n).toList ++ rest) = some (n, rest)
  := by
  rw [readNumber_append (fun c => isDigit_of_mem_padded) (padded_ne_nil width n), number_padded]
  rw [List.takeWhile_append_of_pos fun c => isDigit_of_mem_padded]
  exact List.take_left' (length_padded h)

theorem readMark_cons {mark : Char} (h : mark.isWhitespace = false) (rest : List Char) :
  readMark mark (mark :: rest) = some rest
  := by
  have htrim : trim (mark :: rest) = mark :: rest := List.dropWhile_cons_of_neg (by simp [h])
  rw [readMark, htrim]
  exact if_pos rfl

/-- After a sign a year has as many digits as there are. -/
theorem readYear_signed {sign : Char} (hsign : sign = '-' ∨ sign = '+') (cs : List Char) :
  readYear (sign :: cs)
    = (readNumber cs.length cs).map fun r => (if sign = '-' then -(r.1 : Int) else r.1, r.2)
  := by
  have htrim : trim (sign :: cs) = sign :: cs := by
    obtain rfl | rfl := hsign <;> exact List.dropWhile_cons_of_neg (by decide)
  rw [readYear, htrim]
  obtain rfl | rfl := hsign <;> rfl

/-- Without a sign a year has four digits. -/
theorem readYear_digits {digits : List Char} (hdigits : ∀ c ∈ digits, isDigit c = true)
    (hne : digits ≠ []) (rest : List Char) :
  readYear (digits ++ rest) = (readNumber 4 (digits ++ rest)).map fun r => ((r.1 : Int), r.2)
  := by
  rw [readYear, trim_digits hdigits hne]
  obtain ⟨d, ds, rfl⟩ := List.exists_cons_of_ne_nil hne
  have hd : isDigit d = true := hdigits d (by simp)
  rw [List.cons_append]
  split
  · next heq =>
    obtain ⟨rfl, -⟩ := List.cons.inj heq
    cases hd
  · next heq =>
    obtain ⟨rfl, -⟩ := List.cons.inj heq
    cases hd
  · rfl

/-- A year is read up to the mark after it, with a sign or without one. -/
theorem readYear_yearText (year : Int) (rest : List Char) :
  readYear ((yearText year).toList ++ '-' :: rest) = some (year, '-' :: rest)
  := by
  have hmark : EndsNumber ('-' :: rest) := by
    intro c hc
    obtain rfl := Option.some.inj hc
    rfl
  have hsigned (n : Nat) : readNumber ((padded 4 n).toList ++ '-' :: rest).length
      ((padded 4 n).toList ++ '-' :: rest) = some (n, '-' :: rest) := by
    rw [readNumber_append (fun c => isDigit_of_mem_padded) (padded_ne_nil 4 n), number_padded]
    rw [takeWhile_digits (fun c => isDigit_of_mem_padded) hmark]
    exact List.take_of_length_le (by simp)
  have hplus : "+".toList = ['+'] := rfl
  have hminus : "-".toList = ['-'] := rfl
  rw [yearText]
  split
  · next hyear =>
    have hdigits : (Nat.toDigits 10 year.toNat).length ≤ 4 :=
      (Nat.length_toDigits_le_iff (by decide) (by decide)).mpr (by omega)
    rw [readYear_digits (fun c => isDigit_of_mem_padded) (padded_ne_nil 4 _),
      readNumber_padded hdigits, Option.map_some, Int.toNat_of_nonneg hyear.1]
  split
  · next hyear =>
    rw [String.toList_append, hplus, List.append_assoc, List.singleton_append,
      readYear_signed (.inr rfl), hsigned, Option.map_some, if_neg (by decide),
      Int.toNat_of_nonneg hyear]
  · next hyear =>
    rw [String.toList_append, hminus, List.append_assoc, List.singleton_append,
      readYear_signed (.inl rfl), hsigned, Option.map_some, if_pos rfl,
      Int.toNat_of_nonneg (by omega), Int.neg_neg]

/-- Nanoseconds are read from the groups of digits that are written. -/
theorem readFraction_fractionText {nanos : Nat} (h : nanos < 1000000000) (rest : List Char) :
  readFraction ((fractionText nanos).toList ++ 'Z' :: rest) = some (nanos, 'Z' :: rest)
  := by
  have hzone : EndsNumber ('Z' :: rest) := by
    intro c hc
    obtain rfl := Option.some.inj hc
    rfl
  have hdot : ".".toList = ['.'] := rfl
  have hgroups {width n : Nat} (hwidth : width ≤ 9) (hn : (Nat.toDigits 10 n).length ≤ width) :
      readFraction (("." ++ padded width n).toList ++ 'Z' :: rest)
        = some (n * Nat.pow 10 (9 - width), 'Z' :: rest) := by
    have hlength := length_padded hn
    have htake : (padded width n).toList.take 9 = (padded width n).toList :=
      List.take_of_length_le (by omega)
    rw [String.toList_append, hdot, List.append_assoc, List.singleton_append, readFraction,
      takeWhile_digits (fun c => isDigit_of_mem_padded) hzone]
    simp only [List.isEmpty_iff, padded_ne_nil, if_false, htake, number_padded, hlength]
    rw [List.drop_left' hlength]
  rw [fractionText]
  split
  · next hzero =>
    subst hzero
    rfl
  split
  · next hmillis =>
    rw [hgroups (by decide) ((Nat.length_toDigits_le_iff (by decide) (by decide)).mpr (by omega))]
    have hback : nanos / 1000000 * Nat.pow 10 (9 - 3) = nanos := by
      change nanos / 1000000 * 1000000 = nanos
      omega
    rw [hback]
  split
  · next hmicros =>
    rw [hgroups (by decide) ((Nat.length_toDigits_le_iff (by decide) (by decide)).mpr (by omega))]
    have hback : nanos / 1000 * Nat.pow 10 (9 - 6) = nanos := by
      change nanos / 1000 * 1000 = nanos
      omega
    rw [hback]
  · rw [hgroups (by decide) ((Nat.length_toDigits_le_iff (by decide) (by decide)).mpr (by omega))]
    have hback : nanos * Nat.pow 10 (9 - 9) = nanos := Nat.mul_one nanos
    rw [hback]

/-! ### Texts of points in time -/

section

variable {year : Int} {month day hour minute second fraction : Nat}

theorem lt_of_isValid (h : (⟨year, month, day⟩ : Date).isValid = true) :
  month < 100 ∧ day < 100
  := by
  have hlength : Date.monthLength year month ≤ 31 := by
    unfold Date.monthLength
    repeat' split
    all_goals omega
  simp only [Date.isValid, Bool.and_eq_true, decide_eq_true_eq] at h
  omega

theorem bind_of_eq_some {α β : Type} {x : Option α} {f : α → Option β} {a : α} {b : Option β}
    (hx : x = some a) (hf : f a = b) :
  x >>= f = b
  := by
  rw [hx]
  exact hf

/-- A date and a time of day are read part by part. -/
theorem ofText_of_parts {s : String} (hs : s.toList = (yearText year).toList ++ '-' ::
      ((padded 2 month).toList ++ '-' :: ((padded 2 day).toList ++ 'T' ::
      ((padded 2 hour).toList ++ ':' :: ((padded 2 minute).toList ++ ':' ::
      ((padded 2 second).toList ++ ((fractionText fraction).toList ++ ['Z'])))))))
    (hdate : (⟨year, month, day⟩ : Date).isValid = true) (hhour : hour < 24)
    (hminute : minute < 60) (hsecond : second < 60) (hfraction : fraction < 1000000000) :
  ofText s = some ⟨((⟨year, month, day⟩ : Date).toDays * 86400 + hour * 3600 + minute * 60 + second)
    * nanosPerSecond + fraction⟩
  := by
  obtain ⟨hmonth, hday⟩ := lt_of_isValid hdate
  have hzone : readOffset ['Z'] = some (0, []) := rfl
  have htwo {n : Nat} (hn : n < 100) (rest : List Char) :
      readNumber 2 ((padded 2 n).toList ++ rest) = some (n, rest) :=
    readNumber_padded ((Nat.length_toDigits_le_iff (by decide) (by decide)).mpr hn) rest
  rw [ofText, hs]
  refine bind_of_eq_some (readYear_yearText _ _) ?_
  refine bind_of_eq_some (readMark_cons (by decide) _) ?_
  refine bind_of_eq_some (htwo hmonth _) ?_
  refine bind_of_eq_some (readMark_cons (by decide) _) ?_
  refine bind_of_eq_some (htwo hday _) ?_
  refine bind_of_eq_some rfl ?_
  refine bind_of_eq_some (htwo (by omega) _) ?_
  refine bind_of_eq_some (readMark_cons (by decide) _) ?_
  refine bind_of_eq_some (htwo (by omega) _) ?_
  refine bind_of_eq_some (readMark_cons (by decide) _) ?_
  refine bind_of_eq_some (htwo (by omega) _) ?_
  refine bind_of_eq_some (readFraction_fractionText hfraction _) ?_
  refine bind_of_eq_some hzone ?_
  refine (if_pos ⟨hdate, hhour, hminute, Nat.le_of_lt hsecond, rfl⟩).trans ?_
  rw [Int.sub_zero]

end

/-- The day of a point in time. -/
def date (t : Timestamp) : Date := Date.ofDays (t.nanos / nanosPerSecond / 86400)

theorem toList_text (t : Timestamp) :
  let ofDay := (t.nanos / nanosPerSecond % 86400).toNat
  t.text.toList = (yearText t.date.year).toList ++ '-' ::
    ((padded 2 t.date.month).toList ++ '-' :: ((padded 2 t.date.day).toList ++ 'T' ::
    ((padded 2 (ofDay / 3600)).toList ++ ':' :: ((padded 2 (ofDay / 60 % 60)).toList ++ ':' ::
    ((padded 2 (ofDay % 60)).toList
      ++ ((fractionText (t.nanos % nanosPerSecond).toNat).toList ++ ['Z']))))))
  := by
  have hdash : "-".toList = ['-'] := rfl
  have hcolon : ":".toList = [':'] := rfl
  have htime : "T".toList = ['T'] := rfl
  have hzone : "Z".toList = ['Z'] := rfl
  simp only [text, date, String.toList_append, hdash, hcolon, htime, hzone, List.append_assoc,
    List.cons_append, List.nil_append]

/-- A point in time is in a year of the calendar. -/
structure InCalendar (t : Timestamp) : Prop where
  first : -262143 ≤ t.date.year
  last : t.date.year ≤ 262142

/-- The text of a point in time that is in the calendar denotes it. -/
theorem ofText_text {t : Timestamp} (h : t.InCalendar) :
  ofText t.text = some t
  := by
  have hdays : (⟨t.date.year, t.date.month, t.date.day⟩ : Date).toDays
      = t.nanos / nanosPerSecond / 86400 := Date.toDays_ofDays _
  have hread := ofText_of_parts (toList_text t) (Date.isValid_ofDays h.first h.last) (by omega)
    (by omega) (by omega) (by rw [nanosPerSecond]; omega)
  rw [hread, hdays, Option.some.injEq]
  obtain ⟨nanos⟩ := t
  rw [Timestamp.mk.injEq, nanosPerSecond]
  dsimp only
  omega

end Timestamp

end Statechart
