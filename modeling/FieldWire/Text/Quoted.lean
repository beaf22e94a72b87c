/-!
# Quoted texts in messages

A message that shows a text or a byte sets it in quotes and makes what a reader could not see
visible: the quote in use and the backslash are escaped by a backslash, NUL, tab, newline and
carriage return have their letters, and every other character that leaves no mark of its own
(`isUnseen`) is written by its number in braces. All else stands as it is.
-/

namespace FieldWire.Text

/-- Ranges of characters that leave no mark of their own: controls, separators other than the
space, formatting characters, private and combining ones. -/
def unseenRanges : List (Nat × Nat) :=
  [(0x00, 0x1F), (0x7F, 0xA0), (0xAD, 0xAD), (0x0300, 0x036F), (0x0483, 0x0489), (0x0591, 0x05BD),
   (0x061C, 0x061C), (0x064B, 0x065F), (0x1680, 0x1680), (0x180B, 0x180F), (0x1AB0, 0x1ACE),
   (0x1DC0, 0x1DFF), (0x2000, 0x200F), (0x2028, 0x202F), (0x205F, 0x206F), (0x20D0, 0x20F0),
   (0x3000, 0x3000), (0xD800, 0xF8FF), (0xFE00, 0xFE0F), (0xFE20, 0xFE2F), (0xFEFF, 0xFEFF),
   (0xFFF0, 0xFFFB), (0xFFFE, 0xFFFF), (0xE0000, 0xE0FFF), (0xF0000, 0x10FFFF)]

/-- A character that leaves no mark of its own. -/
def isUnseen (c : Char) : Bool :=
  unseenRanges.any fun (low, high) => low ≤ c.toNat && c.toNat ≤ high

/-- A number in lowercase hexadecimal without leading zeros. -/
def hexNumeral (n : Nat) : String := String.ofList (Nat.toDigits 16 n)

/-- A byte as two lowercase hexadecimal digits behind the mark of the base. -/
def hexByte (b : UInt8) : String :=
  let digits := Nat.toDigits 16 b.toNat
  "0x" ++ String.ofList (if digits.length < 2 then '0' :: digits else digits)

/-- One character as it appears between quotes of the kind `quote`. -/
def showChar (quote : Char) (c : Char) : String :=
  if c = '\x00' then "\\0"
  else if c = '\t' then "\\t"
  else if c = '\n' then "\\n"
  else if c = '\r' then "\\r"
  else if c = '\\' then "\\\\"
  else if c = quote then "\\" ++ String.singleton c
  else if isUnseen c then "\\u\x7b" ++ hexNumeral c.toNat ++ "\x7d"
  else String.singleton c

/-- A text in double quotes. -/
def quoted (text : String) : String :=
  text.foldl (fun shown c => shown ++ showChar '"' c) "\"" ++ "\""

/-- A byte in single quotes, as the character of its number. -/
def quotedByte (b : UInt8) : String :=
  "'" ++ showChar '\'' (Char.ofNat b.toNat) ++ "'"

end FieldWire.Text
