/-!
# Binary numbers of 53 digits

`Binary64` holds a finite binary number: a sign, a mantissa below `2 ^ 53` and a power of two. A
ratio is rounded to the nearest one, an exact tie to the even mantissa, in exact arithmetic
(`nearest?`); a ratio beyond the largest number has none.

A decimal numeral `significand * 10 ^ exponent` becomes a binary number by rounding twice
(`ofDecimal?`): the significand first, then its product with, or quotient by, a rounded power of
ten. The two roundings are part of the rule, so the result may miss the nearest number by one unit.
-/

namespace FieldWire

/-- The number `± mantissa * 2 ^ exponent`. -/
structure Binary64 where
  /-- Whether the number carries a minus sign; zero may. -/
  negative : Bool
  /-- The binary digits, below `2 ^ 53`. -/
  mantissa : Nat
  /-- The power of two, from `-1074` to `971`. -/
  exponent : Int
deriving DecidableEq, Repr

namespace Binary64

/-- The least power of two. -/
def minExponent : Int := -1074

/-- The greatest power of two. -/
def maxExponent : Int := 971

/-- The least mantissa of 53 binary digits. -/
def leastLong : Nat := 0x10000000000000

/-- The number zero. -/
def zero : Binary64 := ⟨false, 0, minExponent⟩

/-- The same magnitude with the other sign. -/
def neg (x : Binary64) : Binary64 := { x with negative := !x.negative }

/-- Numerator of the magnitude. -/
def num (x : Binary64) : Nat := x.mantissa * Nat.pow 2 x.exponent.toNat

/-- Denominator of the magnitude. -/
def den (x : Binary64) : Nat := Nat.pow 2 (-x.exponent).toNat

/-- A quotient rounded to the nearest whole number, a tie to the even one. -/
def roundDiv (n d : Nat) : Nat :=
  let q := n / d
  let r := n % d
  if 2 * r < d ∨ (2 * r = d ∧ q % 2 = 0) then q else q + 1

/-- The exponent of the last binary place of `n / d`, when 53 places are kept. -/
def lastPlace (n d : Nat) : Int :=
  let e : Int := (Nat.log2 n : Int) - (Nat.log2 d : Int) - 52
  let short := n * Nat.pow 2 (-e).toNat < leastLong * (d * Nat.pow 2 e.toNat)
  max (if short then e - 1 else e) minExponent

/-- The number nearest to `n / d`. -/
def nearest? (n d : Nat) : Option Binary64 :=
  if n = 0 then some zero
  else
    let e := lastPlace n d
    let m := roundDiv (n * Nat.pow 2 (-e).toNat) (d * Nat.pow 2 e.toNat)
    let x : Binary64 := if m = 2 * leastLong then ⟨false, leastLong, e + 1⟩ else ⟨false, m, e⟩
    if x.exponent > maxExponent then none else some x

/-- The product of two magnitudes, rounded. -/
def mul? (x y : Binary64) : Option Binary64 := nearest? (x.num * y.num) (x.den * y.den)

/-- The quotient of two magnitudes, rounded. -/
def div? (x y : Binary64) : Option Binary64 := nearest? (x.num * y.den) (x.den * y.num)

/-- The greatest power of ten that has a binary number. -/
def maxPowerOfTen : Nat := 308

/-- The number nearest to a power of ten. -/
def powerOfTen? (k : Nat) : Option Binary64 := nearest? (Nat.pow 10 k) 1

/-- Divides by the greatest power of ten up to `steps` times; zero stays as it is. -/
def divideSteps : (steps : Nat) → Binary64 → Option Binary64
  | 0, x => some x
  | steps + 1, x =>
    if x.mantissa = 0 then some x
    else do
      let ten ← powerOfTen? maxPowerOfTen
      divideSteps steps (← x.div? ten)

/-- The magnitude of the decimal numeral `significand * 10 ^ exponent`. -/
def ofDecimal? (significand : Nat) (exponent : Int) : Option Binary64 := do
  let x ← nearest? significand 1
  let k := exponent.natAbs
  if 0 ≤ exponent then
    if k ≤ maxPowerOfTen then x.mul? (← powerOfTen? k)
    else if x.mantissa = 0 then some x
    else none
  else
    let steps := (k - 1) / maxPowerOfTen
    let x ← divideSteps steps x
    x.div? (← powerOfTen? (k - steps * maxPowerOfTen))

end Binary64

end FieldWire
