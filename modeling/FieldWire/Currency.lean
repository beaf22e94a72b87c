import FieldWire.Value.HexText
import FieldWire.Wire.Cursor

/-!
# Currencies

A currency is twenty bytes. All zeros denote the native asset. A currency in standard form has zeros
everywhere but in the three bytes at place twelve, where a code of three characters stands; the
native code must not be spelled out there. Every other string of bytes is a raw currency.

As text, the native asset is its code, a currency in standard form is its three characters, and a
raw one is forty hexadecimal digits.
-/

namespace FieldWire

/-- An asset by its twenty bytes. -/
structure Currency where
  /-- The bytes. -/
  bytes : Octets 20
deriving DecidableEq

namespace Currency

/-- The code of the native asset. -/
def nativeCode : String := "XRP"

/-- The bytes of the native code. -/
def nativeCodeBytes : List UInt8 := [0x58, 0x52, 0x50]

/-- The native asset. -/
def native : Currency := ⟨Octets.zero 20⟩

/-- Whether this is the native asset. -/
def isNative (c : Currency) : Bool := c.bytes.toList.all (· = 0)

/-- The three bytes in which a code stands. -/
def code (c : Currency) : List UInt8 := (c.bytes.toList.drop 12).take 3

/-- Whether all bytes but those of the code are zero. -/
def isStandard (c : Currency) : Bool :=
  (c.bytes.toList.take 12).all (· = 0) && (c.bytes.toList.drop 15).all (· = 0)

/-- The marks that a code may have beside letters and digits. -/
def codeMarks : List Char :=
  ['?', '!', '@', '#', '$', '%', '^', '&', '*', '(', ')', '\x7b', '\x7d', '[', ']', '|']

/-- Whether a character may stand in a code. -/
def isCodeChar (c : Char) : Bool := c.isAlphanum || codeMarks.contains c

/-- The character of a byte. -/
def charOf (b : UInt8) : Char := Char.ofNat b.toNat

/-- The code of three characters, if the currency has one that is not the native code. -/
def isoCode? (c : Currency) : Option String :=
  if c.isStandard ∧ c.code.all (fun b => isCodeChar (charOf b)) ∧ c.code ≠ nativeCodeBytes then
    some (String.ofList (c.code.map charOf))
  else none

/-- Whether the native code is spelled out in standard form. -/
def spellsNative (c : Currency) : Bool := c.isStandard && c.code = nativeCodeBytes

/-- The currency, unless the native code is spelled out. -/
def checked (c : Currency) : Except Error Currency :=
  if c.spellsNative then .error (.ofKind .currency .nativeSpelledOut) else .ok c

/-- The currency with a code in standard form. -/
def standard (a b c : UInt8) : Currency :=
  ⟨List.replicate 12 0 ++ [a, b, c] ++ List.replicate 5 0, rfl⟩

/-- The code that three characters spell. -/
def ofCode? : List Char → Option Currency
  | [a, b, c] =>
    if isCodeChar a ∧ isCodeChar b ∧ isCodeChar c then
      some (standard (UInt8.ofNat a.toNat) (UInt8.ofNat b.toNat) (UInt8.ofNat c.toNat))
    else none
  | _ => none

/-- The currency of a text. -/
def ofText (text : String) : Except Error Currency :=
  if text = nativeCode then .ok native
  else
    match ofCode? text.toList with
    | some c => .ok c
    | none =>
      if (utf8Bytes text).length = 40 then do
        checked ⟨← Octets.ofHex .currency 20 text⟩
      else .error (.ofKind .currency (.notCurrency text))

/-- The text of a currency. -/
def toText (c : Currency) : String :=
  if c.isNative then nativeCode
  else
    match c.isoCode? with
    | some code => code
    | none => c.bytes.toHex

/-- The currency of a plain value. -/
def ofJson (j : Json) : Except Error Currency := do
  ofText (← expectText .currency j)

/-- The plain form of a currency. -/
def toJson (c : Currency) : Json := .str c.toText

/-- Takes a currency that is checked. -/
def readChecked : Reader Currency := do
  let bytes ← Reader.octets 20
  Reader.lift (checked ⟨bytes⟩)

/-- Takes a currency that fills its length. -/
def read (length : Option Nat) : Reader Currency := do
  Reader.checkWidth .currency length 20
  readChecked

end Currency

end FieldWire
