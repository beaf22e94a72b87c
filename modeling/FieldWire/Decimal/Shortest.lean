import FieldWire.Decimal.Binary64

/-!
# Shortest decimal text of a binary number

Among the decimal numbers that round to a given binary number, `shortest` picks one with the fewest
digits, and of those the nearest. For one, two, and so on up to seventeen digits it tries the two
neighbours of the value on the grid of decimal numbers with that many digits; the first grid that
has a neighbour in the interval of values rounding to the number decides.

`Binary64.toText` writes the digits with a point, and with an exponent outside the range of
`positionalRange`.
-/

namespace FieldWire.Binary64

/-- A decimal number `digits * 10 ^ exponent`. -/
structure Decimal where
  /-- The digits as a number. -/
  digits : Nat
  /-- The power of ten. -/
  exponent : Int
deriving DecidableEq, Repr

/-- The power of ten of the leading decimal digit of `n / d`, for `n` and `d` positive. -/
def leadingPlace (n d : Nat) : Int :=
  if d ≤ n then ((Nat.toDigits 10 (n / d)).length : Int) - 1
  else -((Nat.toDigits 10 ((d - 1) / n)).length : Int)

/-- The neighbour of `x` on the grid of multiples of `10 ^ place` that rounds back to `x`, if there
is one; of two the nearer, of two equally near the even one. All quantities are multiples of a
quarter of the last binary place of `x`. -/
def neighbour? (x : Binary64) (place : Int) : Option Nat :=
  let quarter := x.exponent - 2
  -- One grid step is `step / unit` quarters.
  let step := Nat.pow 10 place.toNat * Nat.pow 2 (-quarter).toNat
  let unit := Nat.pow 10 (-place).toNat * Nat.pow 2 quarter.toNat
  let value := 4 * x.mantissa * unit
  let below := if x.mantissa = leastLong ∧ x.exponent > minExponent then 1 else 2
  let low := (4 * x.mantissa - below) * unit
  let high := (4 * x.mantissa + 2) * unit
  let inside (c : Nat) : Bool :=
    if x.mantissa % 2 = 0 then low ≤ c * step && c * step ≤ high
    else low < c * step && c * step < high
  let floor := value / step
  let down := value - floor * step
  let up := (floor + 1) * step - value
  match inside floor, inside (floor + 1) with
  | true, true => some (if down < up ∨ (down = up ∧ floor % 2 = 0) then floor else floor + 1)
  | true, false => some floor
  | false, true => some (floor + 1)
  | false, false => none

/-- Tries grids of `count` digits and more, with `left` grids to go. -/
def searchGrids (x : Binary64) (lead : Int) : (left count : Nat) → Decimal
  | 0, _ => ⟨0, 0⟩
  | left + 1, count =>
    let place := lead + 1 - count
    match neighbour? x place with
    | some c => ⟨c, place⟩
    | none => searchGrids x lead left (count + 1)

/-- A decimal number without trailing zeros, in at most `steps` divisions by ten. -/
def stripZeros : (steps : Nat) → Decimal → Decimal
  | 0, d => d
  | steps + 1, d =>
    if d.digits % 10 = 0 then stripZeros steps ⟨d.digits / 10, d.exponent + 1⟩ else d

/-- The shortest decimal number that rounds to the magnitude of `x`. -/
def shortest (x : Binary64) : Decimal :=
  if x.mantissa = 0 then ⟨0, 0⟩
  else stripZeros 17 (searchGrids x (leadingPlace x.num x.den) 17 1)

/-- Powers of ten of the leading digit that are written without an exponent. -/
def positionalRange : Int × Int := (-5, 15)

/-- A whole number with its sign, which is always written. -/
def signedNumeral (e : Int) : String :=
  (if e < 0 then "-" else "+") ++ toString e.natAbs

/-- A decimal number as text: at least one digit after the point, or an exponent with its sign. -/
def Decimal.toText (d : Decimal) : String :=
  let digits := Nat.toDigits 10 d.digits
  let zeros (n : Int) : List Char := List.replicate n.toNat '0'
  let lead := (digits.length : Int) - 1 + d.exponent
  if d.digits = 0 then "0.0"
  else if positionalRange.1 ≤ lead ∧ lead ≤ positionalRange.2 then
    if 0 ≤ d.exponent then String.ofList (digits ++ zeros d.exponent) ++ ".0"
    else if 0 ≤ lead then
      let whole := (lead + 1).toNat
      String.ofList (digits.take whole ++ '.' :: digits.drop whole)
    else String.ofList ('0' :: '.' :: zeros (-lead - 1) ++ digits)
  else
    let fraction := if digits.length = 1 then [] else '.' :: digits.drop 1
    String.ofList (digits.take 1 ++ fraction) ++ "e" ++ signedNumeral lead

/-- The text of a binary number. -/
def toText (x : Binary64) : String :=
  (if x.negative then "-" else "") ++ x.shortest.toText

end FieldWire.Binary64
