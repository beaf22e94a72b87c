import FieldWire.Json.Basic

/-!
# Plain values from text

A document is one value with blanks around it. A numeral without fraction and exponent that fits a
word of 64 bits, signed or unsigned, is a whole number; every other numeral, and `-0`, is a binary
number, for which the digits that fit an unsigned word count and later ones only keep their places.

Some parts have the form of a value and spell none: a numeral beyond the largest binary number, a
text with half of a surrogate pair, and an object with such a text among its keys.

`Json.parse?` refuses a document with such a part and merges repeated keys. `Json.parseLenient?` has
`null` in the place of such a part and keeps repeated keys: it serves readers of records, which pass
over members that they do not know, whatever those hold, and have no use for `null` elsewhere.
-/

namespace FieldWire.Json

/-- The blanks between tokens. -/
def isBlank (c : Char) : Bool := c = ' ' || c = '\n' || c = '\t' || c = '\r'

/-- The text from its first character that is no blank. -/
def skipBlanks (cs : List Char) : List Char := cs.dropWhile isBlank

/-! ### Texts -/

/-- The value of four hexadecimal digits. -/
def unit? (a b c d : Char) : Option Nat := do
  let digit (x : Char) : Option Nat := (Text.digitValue? x).filter (· < 16)
  return (((← digit a) * 16 + (← digit b)) * 16 + (← digit c)) * 16 + (← digit d)

/-- The character that stands for itself behind a backslash, or that a letter stands for. -/
def escaped? (c : Char) : Option Char :=
  if c = '"' ∨ c = '\\' ∨ c = '/' then some c
  else if c = 'b' then some '\x08'
  else if c = 'f' then some '\x0c'
  else if c = 'n' then some '\n'
  else if c = 'r' then some '\r'
  else if c = 't' then some '\t'
  else none

/-- A part of a quoted text. -/
inductive Piece where
  /-- A character, as it stands or behind a backslash. -/
  | char (c : Char)
  /-- A unit of sixteen bits, by its number. -/
  | unit (n : Nat)

/-- The text that pieces spell behind the characters already found (last one first); none if a half
of a surrogate pair stands alone. -/
def spell? : (found : List Char) → List Piece → Option String
  | found, [] => some (String.ofList found.reverse)
  | found, .char c :: rest => spell? (c :: found) rest
  | found, .unit n :: rest =>
    if 0xD800 ≤ n ∧ n < 0xDC00 then
      match rest with
      | .unit low :: rest =>
        if 0xDC00 ≤ low ∧ low < 0xE000 then
          spell? (Char.ofNat (0x10000 + (n - 0xD800) * 0x400 + (low - 0xDC00)) :: found) rest
        else none
      | _ => none
    else if 0xDC00 ≤ n ∧ n < 0xE000 then none
    else spell? (Char.ofNat n :: found) rest

/-- Reads the rest of a quoted text behind the pieces already read (last one first). -/
def parsePieces : (read : List Piece) → List Char → Option (List Piece × List Char)
  | read, '"' :: rest => some (read.reverse, rest)
  | read, '\\' :: 'u' :: a :: b :: c :: d :: rest =>
    match unit? a b c d with
    | some n => parsePieces (.unit n :: read) rest
    | none => none
  | read, '\\' :: c :: rest =>
    match escaped? c with
    | some e => parsePieces (.char e :: read) rest
    | none => none
  | read, c :: rest =>
    if c = '\\' ∨ c.toNat < 0x20 then none else parsePieces (.char c :: read) rest
  | _, [] => none

/-- Reads the rest of a quoted text. Its value is none if half of a surrogate pair stands alone. -/
def parseText (cs : List Char) : Option (Option String × List Char) :=
  (parsePieces [] cs).map fun (pieces, rest) => (spell? [] pieces, rest)

/-! ### Numerals -/

/-- The digits at the front of a text, and the rest. -/
def spanDigits (cs : List Char) : List Char × List Char := cs.span Char.isDigit

/-- Appends digits to a significand while it stays an unsigned word: the significand and the number
of digits that did not fit. -/
def absorb : (significand : Nat) → List Char → Nat × Nat
  | n, [] => (n, 0)
  | n, c :: rest =>
    let next := n * 10 + (c.toNat - 48)
    if next ≤ Text.maxUInt64 then absorb next rest else (n, rest.length + 1)

/-- The exponent of a numeral, if the text starts with one; a mark without digits is a fault. -/
def parseExponent (cs : List Char) : Option (Option Int × List Char) :=
  let digits (negative : Bool) (cs : List Char) : Option (Option Int × List Char) :=
    let (ds, rest) := spanDigits cs
    if ds.isEmpty then none
    else
      let n : Int := Nat.ofDigitChars 10 ds 0
      some (some (if negative then -n else n), rest)
  match cs with
  | c :: rest =>
    if c = 'e' ∨ c = 'E' then
      match rest with
      | '+' :: rest => digits false rest
      | '-' :: rest => digits true rest
      | rest => digits false rest
    else some (none, cs)
  | [] => some (none, [])

/-- The fraction digits of a numeral, if the text starts with a point; a bare point is a fault. -/
def parseFraction (cs : List Char) : Option (Option (List Char) × List Char) :=
  match cs with
  | '.' :: rest =>
    let (ds, rest) := spanDigits rest
    if ds.isEmpty then none else some (some ds, rest)
  | _ => some (none, cs)

/-- The binary number of a numeral's parts. -/
def real? (negative : Bool) (whole : List Char) (fraction : List Char) (exponent : Int) :
    Option Number := do
  let (significand, dropped) := absorb 0 whole
  let (significand, unread) := absorb significand fraction
  let kept : Nat := fraction.length - unread
  let x ← Binary64.ofDecimal? significand (exponent + dropped - kept)
  return .real (if negative then x.neg else x)

/-- The number of a numeral's parts. -/
def number? (negative : Bool) (whole : List Char) (fraction : Option (List Char))
    (exponent : Option Int) : Option Number :=
  match fraction, exponent with
  | none, none =>
    let n := Nat.ofDigitChars 10 whole 0
    if negative then
      if 0 < n ∧ n ≤ Text.maxInt64 + 1 then some (.int (-n)) else real? negative whole [] 0
    else if n ≤ Text.maxUInt64 then some (.int n)
    else real? negative whole [] 0
  | _, _ => real? negative whole (fraction.getD []) (exponent.getD 0)

/-- Reads a numeral without its sign: no leading zero, and digits on both sides of a point. Its
number is none if it is beyond the largest binary number. -/
def parseNumeral (negative : Bool) (cs : List Char) : Option (Option Number × List Char) := do
  let (whole, rest) := spanDigits cs
  if whole.isEmpty ∨ (whole.head? = some '0' ∧ whole.length > 1) then none
  else
    let (fraction, rest) ← parseFraction rest
    let (exponent, rest) ← parseExponent rest
    return (number? negative whole fraction exponent, rest)

/-! ### Values -/

mutual
/-- Reads one value. A part that spells none is a fault, unless `unread` can stand in for it. Every
nested call is behind at least one character, so a `fuel` above the length of the text is never used
up. -/
def parseValue (unread : Option Json) : (fuel : Nat) → List Char → Option (Json × List Char)
  | 0, _ => none
  | fuel + 1, cs =>
    match skipBlanks cs with
    | 'n' :: 'u' :: 'l' :: 'l' :: rest => some (null, rest)
    | 't' :: 'r' :: 'u' :: 'e' :: rest => some (bool true, rest)
    | 'f' :: 'a' :: 'l' :: 's' :: 'e' :: rest => some (bool false, rest)
    | '"' :: rest => do
      let (text, rest) ← parseText rest
      return (← (text.map str).or unread, rest)
    | '[' :: rest =>
      match skipBlanks rest with
      | ']' :: rest => some (arr [], rest)
      | rest => do
        let (items, rest) ← parseItems unread fuel [] rest
        return (arr items, rest)
    | '\x7b' :: rest =>
      match skipBlanks rest with
      | '\x7d' :: rest => some (obj [], rest)
      | rest => do
        let (members, rest) ← parseMembers unread fuel (some []) rest
        return (← (members.map obj).or unread, rest)
    | '-' :: rest => do
      let (number, rest) ← parseNumeral true rest
      return (← (number.map num).or unread, rest)
    | rest => do
      let (number, rest) ← parseNumeral false rest
      return (← (number.map num).or unread, rest)

/-- Reads the items of a list, at least one, behind those already read (last one first). -/
def parseItems (unread : Option Json) :
    (fuel : Nat) → (read : List Json) → List Char → Option (List Json × List Char)
  | 0, _, _ => none
  | fuel + 1, read, cs =>
    match parseValue unread fuel cs with
    | none => none
    | some (item, rest) =>
      match skipBlanks rest with
      | ',' :: rest => parseItems unread fuel (item :: read) rest
      | ']' :: rest => some ((item :: read).reverse, rest)
      | _ => none

/-- Reads the members of an object, at least one, behind those already read (last one first); those
are none from the first key that spells no text. -/
def parseMembers (unread : Option Json) :
    (fuel : Nat) → (read : Option (Members Json)) → List Char →
      Option (Option (Members Json) × List Char)
  | 0, _, _ => none
  | fuel + 1, read, cs =>
    match skipBlanks cs with
    | '"' :: rest =>
      match parseText rest with
      | none => none
      | some (key, rest) =>
        match skipBlanks rest with
        | ':' :: rest =>
          match parseValue unread fuel rest with
          | none => none
          | some (value, rest) =>
            let read := do return (← key, value) :: (← read)
            match skipBlanks rest with
            | ',' :: rest => parseMembers unread fuel read rest
            | '\x7d' :: rest => some (read.map List.reverse, rest)
            | _ => none
        | _ => none
    | _ => none
end

/-- The value of a whole text, in which `unread` stands in for the parts that spell none. -/
def parseDocument (unread : Option Json) (text : String) : Option Json :=
  let cs := text.toList
  match parseValue unread (2 * cs.length + 2) cs with
  | some (j, rest) => if (skipBlanks rest).isEmpty then some j else none
  | none => none

/-- The value that a text spells. -/
def parse? (text : String) : Option Json := (parseDocument none text).map merged

/-- The value that a text has the form of, with repeated keys and `null` for the parts that spell
none. -/
def parseLenient? (text : String) : Option Json := parseDocument (some null) text

end FieldWire.Json
