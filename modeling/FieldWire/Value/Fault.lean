import FieldWire.Bytes
import FieldWire.Field.Kind
import FieldWire.Hex
import FieldWire.Json.Printer
import FieldWire.Text.Numeral
import FieldWire.Text.Quoted

/-!
# Why a value does not fit

The causes for which a plain or written value is refused by its kind, and what each says. A cause
that shows a plain value shows its compact text.
-/

namespace FieldWire

/-- What a refused value was meant to be. -/
inductive Subject where
  /-- A value of a kind. -/
  | kind (k : Kind)
  /-- The decimal number of an issued amount. -/
  | issuedValue
deriving DecidableEq, Repr

/-- The name in messages. -/
def Subject.name : Subject → String
  | kind k => k.name
  | issuedValue => "IssuedValue"

/-- The largest native amount, in drops. -/
def maxDrops : Nat := 100000000000000000

/-- Why a value is refused. -/
inductive ValueFault where
  /-- A plain value is no unsigned number. -/
  | notUnsigned (got : Json)
  /-- A number exceeds the largest of its kind. -/
  | exceedsMaximum (value maximum : Nat)
  /-- A plain number is no unsigned word. -/
  | notUnsignedNumber (got : Number)
  /-- A plain value is no hexadecimal word. -/
  | notHexWord (got : Json)
  /-- A text is no hexadecimal word. -/
  | badHexWord (text : String) (fault : Text.NumeralFault)
  /-- A plain value is no text. -/
  | notText (got : Json)
  /-- A hexadecimal text has not the length of its kind. -/
  | hexLength (expected got : Nat)
  /-- A length is not the width of its kind. -/
  | widthMismatch (length width : Nat)
  /-- A text is neither hexadecimal nor an address. -/
  | notAddress (text : String)
  /-- An address book refuses an address, in its own words. -/
  | refusedAddress (reason : String)
  /-- A blob has no length. -/
  | unprefixedBlob
  /-- A vector has no length. -/
  | unprefixedVector
  /-- The length of a vector is no multiple of its hashes' width. -/
  | raggedVector (length : Nat)
  /-- A plain value is no list. -/
  | notList (got : Json)
  /-- The native code is spelled out where an issued code stands. -/
  | nativeSpelledOut
  /-- A text is neither a code nor a raw currency. -/
  | notCurrency (text : String)
  /-- A plain value is no object. -/
  | notObject (got : Json)
  /-- An asset has no currency. -/
  | issueWithoutCurrency
  /-- The native asset has an issuer. -/
  | nativeWithIssuer
  /-- An issued asset has no issuer. -/
  | issuedWithoutIssuer
  /-- An exponent is outside the range. -/
  | exponentRange (exponent : Int)
  /-- A decimal number has too many digits. -/
  | tooManyDigits
  /-- A decimal text has too many digits. -/
  | tooManyDigitsIn (text : String)
  /-- A text is no decimal number. -/
  | notDecimal (text : String)
  /-- A packed number is marked as native. -/
  | nativeBits
  /-- A packed zero has other bits set. -/
  | oddZero (bits : Nat)
  /-- A packed mantissa has not sixteen digits. -/
  | mantissaRange (mantissa : Nat)
  /-- A text is no whole number of drops. -/
  | notDrops (text : String)
  /-- A native amount exceeds the largest one. -/
  | tooManyDrops (shown : String)
  /-- An issued amount lacks a member. -/
  | missingMember (key : String)
  /-- The number of an issued amount is neither a text nor a number. -/
  | notIssuedText (got : Json)
  /-- A plain issued amount has the native currency. -/
  | nativeIssued
  /-- A written issued amount has the native currency. -/
  | nativeIssuedOnWire
  /-- A written native amount is zero and negative. -/
  | negativeZero
  /-- A plain value is no amount. -/
  | notAmount (got : Json)
  /-- A claimed amount is not native or is negative. -/
  | notClaimable
  /-- A plain value is no object of fields. -/
  | notFields
  /-- An end marker is given as a field. -/
  | markerAsField
  /-- A plain value is no list of elements. -/
  | notElements
  /-- An element is not an object with one key. -/
  | elementShape
  /-- An element's field does not hold an object. -/
  | elementKind
  /-- A field with named values does not hold a number. -/
  | enumKind
  /-- A value leaves bytes of its length over, or takes more. -/
  | lengthMismatch (used length : Nat)

/-- The cause in words. -/
def ValueFault.message : ValueFault → String
  | notUnsigned got => s!"expected an unsigned integer, got {got.compact}"
  | exceedsMaximum value maximum => s!"{value} exceeds maximum {maximum}"
  | notUnsignedNumber got => s!"{got.toText} is not an unsigned integer"
  | notHexWord got => s!"expected up to 16 hex characters, got {got.compact}"
  | badHexWord text fault => s!"{text}: {fault.message}"
  | notText got => s!"expected a string, got {got.compact}"
  | hexLength expected got => s!"expected {expected} hex characters, got {got}"
  | widthMismatch length width => s!"length prefix {length} does not match fixed width {width}"
  | notAddress text => s!"{text} is not a valid address"
  | refusedAddress reason => reason
  | unprefixedBlob => "blob fields require a length prefix"
  | unprefixedVector => "vector fields require a length prefix"
  | raggedVector length => s!"length {length} is not a multiple of 32"
  | notList got => s!"expected a list, got {got.compact}"
  | nativeSpelledOut => "the native code cannot be used in standard form"
  | notCurrency text => s!"{text} is neither a three-letter code nor 40 hex characters"
  | notObject got => s!"expected an object, got {got.compact}"
  | issueWithoutCurrency => "issue is missing currency"
  | nativeWithIssuer => "the native currency has no issuer"
  | issuedWithoutIssuer => "issued currencies need an issuer"
  | exponentRange exponent => s!"exponent {exponent} outside -96..=80"
  | tooManyDigits => "more than 16 significant digits"
  | tooManyDigitsIn text => s!"{text} has more than 16 significant digits"
  | notDecimal text => s!"{Text.quoted text} is not a decimal number"
  | nativeBits => "native bit pattern"
  | oddZero bits => s!"non-canonical zero {Hex.encode (BigEndian.ofNat 8 bits)}"
  | mantissaRange mantissa => s!"mantissa {mantissa} is not normalized"
  | notDrops text => s!"{Text.quoted text} is not a whole number of drops"
  | tooManyDrops shown => s!"{shown} exceeds {maxDrops} drops"
  | missingMember key => s!"issued amount is missing {key}"
  | notIssuedText got => s!"issued value must be a string, got {got.compact}"
  | nativeIssued => "issued amounts cannot use the native currency"
  | nativeIssuedOnWire => "issued amount carries the native currency"
  | negativeZero => "negative zero drops"
  | notAmount got => s!"expected drops or an issued amount object, got {got.compact}"
  | notClaimable => "claim amounts are non-negative drops"
  | notFields => "expected a JSON object"
  | markerAsField => "end markers cannot be given as fields"
  | notElements => "expected a list of wrapped objects"
  | elementShape => "array elements must be single-key objects"
  | elementKind => "array elements must wrap an STObject field"
  | enumKind => "enum fields must have an integer type"
  | lengthMismatch used length => s!"value used {used} of {length} prefixed bytes"

end FieldWire
