/-!
# Numerals

Numbers are read from digits of a radix up to a largest value. One leading `+` is accepted; a sign
alone is not a number. Reading goes left to right and stops at the first fault, so whichever of an
invalid digit and an overflow comes first is reported.
-/

namespace FieldWire.Text

/-- Why a text is not a number of the wanted range. -/
inductive NumeralFault where
  /-- There are no characters. -/
  | empty
  /-- A character is not a digit of the radix. -/
  | invalidDigit
  /-- The number exceeds the largest value. -/
  | tooLarge
deriving DecidableEq, Repr

/-- The fault in words. -/
def NumeralFault.message : NumeralFault → String
  | .empty => "cannot parse integer from empty string"
  | .invalidDigit => "invalid digit found in string"
  | .tooLarge => "number too large to fit in target type"

/-- The value of an ASCII digit or letter, where letters of either case follow the nine. -/
def digitValue? (c : Char) : Option Nat :=
  let n := c.toNat
  if 48 ≤ n ∧ n ≤ 57 then some (n - 48)
  else if 65 ≤ n ∧ n ≤ 90 then some (n - 55)
  else if 97 ≤ n ∧ n ≤ 122 then some (n - 87)
  else none

/-- Appends digits to a number that stays at most `limit`. -/
def readDigits (radix limit : Nat) : Nat → List Char → Except NumeralFault Nat
  | n, [] => .ok n
  | n, c :: rest =>
    match digitValue? c with
    | none => .error .invalidDigit
    | some d =>
      if d < radix then
        if n * radix + d ≤ limit then readDigits radix limit (n * radix + d) rest
        else .error .tooLarge
      else .error .invalidDigit

/-- An unsigned number of at most `limit`. -/
def readUnsigned (radix limit : Nat) : List Char → Except NumeralFault Nat
  | [] => .error .empty
  | ['+'] => .error .invalidDigit
  | '+' :: digits => readDigits radix limit 0 digits
  | digits => readDigits radix limit 0 digits

/-- The largest unsigned number of 32 bits. -/
def maxUInt32 : Nat := 0xFFFFFFFF

/-- The largest unsigned number of 64 bits. -/
def maxUInt64 : Nat := 0xFFFFFFFFFFFFFFFF

/-- The largest signed number of 64 bits. -/
def maxInt64 : Nat := 0x7FFFFFFFFFFFFFFF

/-- Whether a number is a signed number of 64 bits. -/
def isInt64 (n : Int) : Bool := -(maxInt64 : Int) - 1 ≤ n && n ≤ maxInt64

/-- An unsigned decimal number of 64 bits. -/
def uint64? (text : String) : Option Nat := (readUnsigned 10 maxUInt64 text.toList).toOption

/-- An unsigned decimal number of 32 bits. -/
def uint32? (text : String) : Option UInt32 :=
  (readUnsigned 10 maxUInt32 text.toList).toOption.map UInt32.ofNat

/-- A numeral without its sign, and whether that is a minus. -/
def splitSign : List Char → Bool × List Char
  | '-' :: rest => (true, rest)
  | '+' :: rest => (false, rest)
  | cs => (false, cs)

/-- A signed decimal number of 64 bits. -/
def int64? : List Char → Option Int
  | ['-'] => none
  | '-' :: digits => (readDigits 10 (maxInt64 + 1) 0 digits).toOption.map fun n => -(n : Int)
  | digits => (readUnsigned 10 maxInt64 digits).toOption.map Int.ofNat

end FieldWire.Text
