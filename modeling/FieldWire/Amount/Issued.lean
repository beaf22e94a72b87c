import FieldWire.Value.Fault

/-!
# Decimal numbers of issued amounts

An issued amount counts in decimal numbers of sixteen digits. A nonzero number is kept with a
mantissa of exactly sixteen digits and an exponent from `-96` to `80`; zero is kept in one way and
is never negative. Three forms are converted to each other:

* `IssuedValue.ofText` reads decimal texts, with or without point and exponent, and refuses numbers
  that need more digits or another exponent instead of rounding them;
* `IssuedValue.toText` writes plain decimal notation without an exponent and without needless zeros;
* `IssuedValue.toBits` and `IssuedValue.ofBits` pack the number into a word: a bit that sets it
  apart from native amounts, a sign bit that is set for positive numbers, eight bits for the
  exponent and 54 for the mantissa.
-/

namespace FieldWire

/-- A decimal number `± mantissa * 10 ^ exponent`. -/
structure IssuedValue where
  /-- Whether the number is negative. -/
  negative : Bool
  /-- The digits. -/
  mantissa : Nat
  /-- The power of ten. -/
  exponent : Int
deriving DecidableEq, Repr

namespace IssuedValue

/-- The least mantissa of a nonzero number. -/
def minMantissa : Nat := 1_000_000_000_000_000

/-- The greatest mantissa. -/
def maxMantissa : Nat := 9_999_999_999_999_999

/-- The least exponent. -/
def minExponent : Int := -96

/-- The greatest exponent. -/
def maxExponent : Int := 80

/-- The number of digits of a mantissa. -/
def precision : Nat := 16

/-- Zero. -/
def zero : IssuedValue := ⟨false, 0, 0⟩

/-- Whether this is zero. -/
def isZero (v : IssuedValue) : Bool := v.mantissa = 0

/-- Zero as it is kept, or a nonzero number whose mantissa and exponent are in range. -/
def IsNormal (v : IssuedValue) : Prop :=
  v = zero ∨ (minMantissa ≤ v.mantissa ∧ v.mantissa ≤ maxMantissa ∧
    minExponent ≤ v.exponent ∧ v.exponent ≤ maxExponent)

instance (v : IssuedValue) : Decidable v.IsNormal := inferInstanceAs (Decidable (_ ∨ _))

/-! ### Normal form -/

/-- Moves digits from the exponent into a mantissa that is too small, in at most `steps` steps. -/
def scale : (steps : Nat) → (mantissa : Nat) → (exponent : Int) → Nat × Int
  | 0, m, e => (m, e)
  | steps + 1, m, e => if m < minMantissa then scale steps (m * 10) (e - 1) else (m, e)

/-- The number with the given digits and exponent in normal form, if it has one. -/
def normalize (negative : Bool) (mantissa : Nat) (exponent : Int) :
    Except ValueFault IssuedValue :=
  if mantissa = 0 then .ok zero
  else if ¬(minExponent - precision ≤ exponent ∧ exponent ≤ maxExponent + precision) then
    .error (.exponentRange exponent)
  else
    let (m, e) := scale precision mantissa exponent
    if maxMantissa < m then .error .tooManyDigits
    else if ¬(minExponent ≤ e ∧ e ≤ maxExponent) then .error (.exponentRange e)
    else .ok ⟨negative, m, e⟩

/-! ### Packed form -/

/-- The bit that sets an issued amount apart from a native one. -/
def issuedBit : Nat := 0x8000000000000000

/-- The bit of positive amounts. -/
def positiveBit : Nat := 0x4000000000000000

/-- The number of bits below the exponent. -/
def exponentShift : Nat := 54

/-- What is added to an exponent so that the least one is packed as one. -/
def exponentBias : Int := 97

/-- The packed form of a number. -/
def toBits (v : IssuedValue) : Nat :=
  if v.isZero then issuedBit
  else
    issuedBit ||| (if v.negative then 0 else positiveBit) |||
      ((v.exponent + exponentBias).toNat <<< exponentShift) ||| v.mantissa

/-- The number of a packed form. -/
def ofBits (bits : Nat) : Except ValueFault IssuedValue :=
  if bits / issuedBit % 2 = 0 then .error .nativeBits
  else
    let mantissa := bits % (1 <<< exponentShift)
    if mantissa = 0 then
      if bits = issuedBit then .ok zero else .error (.oddZero bits)
    else if ¬(minMantissa ≤ mantissa ∧ mantissa ≤ maxMantissa) then
      .error (.mantissaRange mantissa)
    else
      let exponent : Int := ((bits >>> exponentShift % 256 : Nat) : Int) - exponentBias
      normalize (bits / positiveBit % 2 = 0) mantissa exponent

/-! ### Text -/

/-- Whether a character announces an exponent. -/
def isExponentMark (c : Char) : Bool := c = 'e' || c = 'E'

/-- The part of a number before its exponent, and the exponent, which is zero where none stands. -/
def splitExponent (cs : List Char) : Option (List Char × Int) :=
  let (number, rest) := cs.span fun c => !isExponentMark c
  match rest with
  | [] => some (number, 0)
  | _ :: exponent => (Text.int64? exponent).map fun e => (number, e)

/-- The parts of a number before and after its first point. -/
def splitPoint (cs : List Char) : List Char × List Char :=
  let (whole, rest) := cs.span (· ≠ '.')
  (whole, rest.drop 1)

/-- A text without zeros at its end, and how many there were. -/
def stripZeros (digits : List Char) : List Char × Nat :=
  let stripped := (digits.reverse.dropWhile (· = '0')).reverse
  (stripped, digits.length - stripped.length)

/-- An exponent that fits a signed word of 64 bits. -/
def wordExponent? (e : Int) : Option Int := if Text.isInt64 e then some e else none

/-- The parts of a decimal text: its sign, its digits, and the power of ten of the last of them. -/
def parts? (cs : List Char) : Option (Bool × List Char × Int) := do
  let (negative, unsigned) := Text.splitSign cs
  let (number, exponent) ← splitExponent unsigned
  let (whole, fraction) := splitPoint number
  let digits := whole ++ fraction
  if digits.isEmpty ∨ ¬digits.all Char.isDigit then none
  else return (negative, digits, ← wordExponent? (exponent - fraction.length))

/-- The number that a decimal text denotes. -/
def ofText (text : String) : Except ValueFault IssuedValue :=
  match parts? text.toList with
  | none => .error (.notDecimal text)
  | some (negative, digits, exponent) =>
    let significant := digits.dropWhile (· = '0')
    if significant.isEmpty then .ok zero
    else
      let (trimmed, zeros) := stripZeros significant
      match wordExponent? (exponent + zeros) with
      | none => .error (.notDecimal text)
      | some exponent =>
        if precision < trimmed.length then .error (.tooManyDigitsIn text)
        else normalize negative (Nat.ofDigitChars 10 trimmed 0) exponent

/-- The decimal digits `digits * 10 ^ exponent`, with a point where the exponent is negative. -/
def placePoint (digits : List Char) (exponent : Int) : List Char :=
  if 0 ≤ exponent then digits ++ List.replicate exponent.toNat '0'
  else
    let point := (digits.length : Int) + exponent
    if 0 < point then digits.take point.toNat ++ '.' :: digits.drop point.toNat
    else '0' :: '.' :: List.replicate (-point).toNat '0' ++ digits

/-- The text of a number. -/
def toText (v : IssuedValue) : String :=
  if v.isZero then "0"
  else
    let (digits, zeros) := stripZeros (Nat.toDigits 10 v.mantissa)
    let unsigned := placePoint digits (v.exponent + zeros)
    String.ofList (if v.negative then '-' :: unsigned else unsigned)

end IssuedValue

end FieldWire
