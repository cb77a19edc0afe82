/-!
# Binary floating point, exactly

Finite numbers `± m · 2 ^ e` with `m < 2 ^ 53` and `-1074 ≤ e ≤ 971`, kept as the
integers `m` and `e`.  A quotient of natural numbers is rounded to the nearest such
number, ties going to the even `m`; the shortest decimal that reads back is found by
testing the two neighbours of a number on ever finer decimal grids.  All arithmetic
is on natural numbers.
-/

namespace Statechart

/-- A finite floating-point number: the sign, the integer `m` and the exponent `e` of
`± m · 2 ^ e`.  Nonzero numbers have `2 ^ 52 ≤ m` or `e = -1074`. -/
structure Binary64 where
  negative : Bool
  mantissa : Nat
  exponent : Int
deriving Repr, DecidableEq

namespace Binary64

/-- The least exponent. -/
def minExponent : Int := -1074

/-- The greatest exponent. -/
def maxExponent : Int := 971

/-- The number zero, with a sign. -/
def zero (negative : Bool) : Binary64 := ⟨negative, 0, minExponent⟩

/-- Whether the number is zero. -/
def isZero (x : Binary64) : Bool := x.mantissa == 0

/-- The quotient rounded to the nearest integer, a half going to the even neighbour. -/
def roundEven (num den : Nat) : Nat :=
  let q := num / den
  let r := num % den
  if 2 * r < den then q
  else if den < 2 * r then q + 1
  else if q % 2 = 0 then q
  else q + 1

/-- The quotient `num / den · 2 ^ (-e)`, as a numerator and a denominator. -/
def scaled (num den : Nat) (e : Int) : Nat × Nat :=
  if 0 ≤ e then (num, den * Nat.pow 2 e.toNat) else (num * Nat.pow 2 (-e).toNat, den)

/-- The number nearest to `num / den`, or `none` if that is beyond the largest one. -/
def ofQuotient (negative : Bool) (num den : Nat) : Option Binary64 :=
  if num = 0 then some (zero negative)
  else
    let guess : Int := (num.log2 : Int) - (den.log2 : Int) - 52
    let atGuess := scaled num den guess
    let fit := if atGuess.1 < Nat.pow 2 52 * atGuess.2 then guess - 1 else guess
    let e := max fit minExponent
    let atFit := scaled num den e
    let m := roundEven atFit.1 atFit.2
    let result : Binary64 :=
      if m = Nat.pow 2 53 then ⟨negative, Nat.pow 2 52, e + 1⟩ else ⟨negative, m, e⟩
    if maxExponent < result.exponent then none
    else if result.mantissa = 0 then some (zero negative)
    else some result

/-- The absolute value as a quotient of natural numbers. -/
def magnitude (x : Binary64) : Nat × Nat :=
  if 0 ≤ x.exponent then (x.mantissa * Nat.pow 2 x.exponent.toNat, 1)
  else (x.mantissa, Nat.pow 2 (-x.exponent).toNat)

/-- The product, rounded. -/
def mul (x y : Binary64) : Option Binary64 :=
  let a := x.magnitude
  let b := y.magnitude
  ofQuotient (x.negative != y.negative) (a.1 * b.1) (a.2 * b.2)

/-- The quotient by a nonzero number, rounded. -/
def div (x y : Binary64) : Option Binary64 :=
  let a := x.magnitude
  let b := y.magnitude
  ofQuotient (x.negative != y.negative) (a.1 * b.2) (a.2 * b.1)

/-- Numeric equality: the two zeros are equal. -/
def beq (x y : Binary64) : Bool :=
  (x.isZero && y.isZero) || decide (x = y)

/-! ### Decimals -/

/-- The largest significand kept while the digits of a decimal are read. -/
def maxSignificand : Nat := 18446744073709551615

/-- Scales by a power of ten that is itself rounded; powers below the least rounded
one are taken in steps of `10 ^ 308`, at most `steps` of them. -/
def scaleTen (steps : Nat) (x : Binary64) (exponent : Int) : Option Binary64 :=
  if exponent.natAbs ≤ 308 then
    match ofQuotient false (Nat.pow 10 exponent.natAbs) 1 with
    | none => none
    | some ten => if 0 ≤ exponent then x.mul ten else x.div ten
  else if x.isZero then some x
  else if 0 ≤ exponent then none
  else
    match steps with
    | 0 => some (zero x.negative)
    | steps + 1 =>
      match ofQuotient false (Nat.pow 10 308) 1 with
      | none => none
      | some ten =>
        match x.div ten with
        | none => none
        | some y => scaleTen steps y (exponent + 308)

/-- The number written as `significand · 10 ^ exponent`: the significand is rounded,
then scaled.  `none` if the result is beyond the largest number. -/
def ofDecimal (negative : Bool) (significand : Nat) (exponent : Int) : Option Binary64 :=
  match ofQuotient false significand 1 with
  | none => none
  | some x =>
    match scaleTen 4 x exponent with
    | none => none
    | some y => some { y with negative := negative }

/-- Whether the decimal `c · 10 ^ p` reads back as the nonzero number `x`. -/
def readsBack (x : Binary64) (c : Nat) (p : Int) : Bool :=
  -- The interval around `x`, in units of a quarter of `2 ^ e`.
  let above := 4 * x.mantissa + 2
  let below :=
    if x.mantissa = Nat.pow 2 52 ∧ minExponent < x.exponent then 4 * x.mantissa - 1
    else 4 * x.mantissa - 2
  let e := x.exponent - 2
  let unit := scaled 1 1 (-e)
  let tens : Nat × Nat := if 0 ≤ p then (Nat.pow 10 p.toNat, 1) else (1, Nat.pow 10 (-p).toNat)
  let value := c * tens.1 * unit.2
  let scale := tens.2 * unit.1
  if x.mantissa % 2 = 0 then below * scale ≤ value && value ≤ above * scale
  else below * scale < value && value < above * scale

/-- The number of decimal digits. -/
def decimalLength (n : Nat) : Nat := (Nat.toDigits 10 n).length

/-- The position of the leading digit: the greatest `k` with `10 ^ k ≤ num / den`. -/
def leading (num den : Nat) : Int :=
  if den ≤ num then (decimalLength (num / den) : Int) - 1
  else
    -- `den ≤ num · 10 ^ (j + 1)` for this `j`; at most two of the candidates are tried.
    let j := decimalLength (den / num)
    if den ≤ num * Nat.pow 10 (j - 1) then 1 - (j : Int) else -(j : Int)

/-- The nearer of two neighbours on the grid of step `10 ^ p` that reads back, if any;
of two equally near the even one. -/
def onGrid (x : Binary64) (p : Int) : Option Nat :=
  let v := x.magnitude
  let q : Nat × Nat :=
    if 0 ≤ p then (v.1, v.2 * Nat.pow 10 p.toNat) else (v.1 * Nat.pow 10 (-p).toNat, v.2)
  let c := q.1 / q.2
  let r := q.1 % q.2
  let lower := readsBack x c p && c != 0
  let upper := readsBack x (c + 1) p
  match lower, upper with
  | false, false => none
  | true, false => some c
  | false, true => some (c + 1)
  | true, true =>
    if 2 * r < q.2 then some c
    else if q.2 < 2 * r then some (c + 1)
    else if c % 2 = 0 then some c
    else some (c + 1)

/-- The first grid with a hit, from `digits` digits on. -/
def search (x : Binary64) (top : Int) (digits : Nat) : Nat → Nat × Int
  | 0 => (x.mantissa, 0)
  | fuel + 1 =>
    let p := top + 1 - digits
    match onGrid x p with
    | some c => (c, p)
    | none => search x top (digits + 1) fuel

/-- Drops the trailing zeros of `c · 10 ^ p`. -/
def dropZeros : Nat → Nat × Int → Nat × Int
  | 0, d => d
  | fuel + 1, (c, p) =>
    if c ≠ 0 ∧ c % 10 = 0 then dropZeros fuel (c / 10, p + 1) else (c, p)

/-- The decimal `c · 10 ^ p` with the fewest digits that reads back as `x`, and of
those the nearest. -/
def shortest (x : Binary64) : Nat × Int :=
  if x.isZero then (0, 0)
  else
    let v := x.magnitude
    dropZeros 20 (search x (leading v.1 v.2) 1 17)

/-- The sign of a number as text. -/
def sign (x : Binary64) : String := if x.negative then "-" else ""

/-- A run of zeros. -/
def zeros (n : Nat) : String := String.ofList (List.replicate n '0')

/-- The text of a number: positional where the decimal point falls between five
places before the digits and sixteen places after their start, with `.0` after an
integer; otherwise scientific, with a bare exponent. -/
def text (x : Binary64) : String :=
  if x.isZero then x.sign ++ "0.0"
  else
    let d := x.shortest
    let digits := toString d.1
    let length := digits.length
    let point : Int := length + d.2
    if 0 ≤ d.2 ∧ point ≤ 16 then
      x.sign ++ digits ++ zeros d.2.toNat ++ ".0"
    else if 0 < point ∧ point ≤ 16 then
      x.sign ++ String.ofList (digits.toList.take point.toNat) ++ "."
        ++ String.ofList (digits.toList.drop point.toNat)
    else if -5 < point ∧ point ≤ 0 then
      x.sign ++ "0." ++ zeros (-point).toNat ++ digits
    else if length = 1 then
      x.sign ++ digits ++ "e" ++ toString (point - 1)
    else
      x.sign ++ String.ofList (digits.toList.take 1) ++ "."
        ++ String.ofList (digits.toList.drop 1) ++ "e" ++ toString (point - 1)

/-- The text of a number without an exponent, however many digits that takes, and
with a decimal point. -/
def positional (x : Binary64) : String :=
  if x.isZero then x.sign ++ "0.0"
  else
    let d := x.shortest
    let digits := toString d.1
    let point : Int := digits.length + d.2
    if 0 ≤ d.2 then
      x.sign ++ digits ++ zeros d.2.toNat ++ ".0"
    else if 0 < point then
      x.sign ++ String.ofList (digits.toList.take point.toNat) ++ "."
        ++ String.ofList (digits.toList.drop point.toNat)
    else
      x.sign ++ "0." ++ zeros (-point).toNat ++ digits

end Binary64

end Statechart
