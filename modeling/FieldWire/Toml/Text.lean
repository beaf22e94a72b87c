import FieldWire.Json.Parser

/-!
# TOML texts

A text stands between quotes, which may be tripled for a text of several lines. Between double
quotes a backslash starts an escape; between single quotes it is a character like any other. A
newline right behind tripled quotes is left out, and a line may end with a backslash to leave out
everything up to the next character that is no blank. Line ends are kept as newlines.
-/

namespace FieldWire.Toml

/-- Whether a character may stand in comments and texts: a tab, or no control. -/
def isPlain (c : Char) : Bool := c = '\t' || (0x20 ≤ c.toNat && c.toNat ≠ 0x7F)

/-- The blanks within a line. -/
def isBlank (c : Char) : Bool := c = ' ' || c = '\t'

/-- The rest of a text behind a line end, if it starts with one. -/
def newline? : List Char → Option (List Char)
  | '\n' :: rest => some rest
  | '\r' :: '\n' :: rest => some rest
  | _ => none

/-- The character that a letter behind a backslash stands for. -/
def escaped? (c : Char) : Option Char :=
  if c = 'b' then some '\x08'
  else if c = 't' then some '\t'
  else if c = 'n' then some '\n'
  else if c = 'f' then some '\x0c'
  else if c = 'r' then some '\r'
  else if c = '"' then some '"'
  else if c = '\\' then some '\\'
  else none

/-- The character of a number in hexadecimal digits. -/
def charOfDigits? (digits : List Char) : Option Char := do
  let n ← digits.foldlM (fun n c => do
    let d ← (Text.digitValue? c).filter (· < 16)
    return n * 16 + d) 0
  if n < 0xD800 ∨ (0xE000 ≤ n ∧ n < 0x110000) then some (Char.ofNat n) else none

/-- Reads an escape, behind its backslash. -/
def parseEscape : List Char → Option (Char × List Char)
  | 'u' :: rest =>
    if (rest.take 4).length = 4 then
      (charOfDigits? (rest.take 4)).map fun c => (c, rest.drop 4)
    else none
  | 'U' :: rest =>
    if (rest.take 8).length = 8 then
      (charOfDigits? (rest.take 8)).map fun c => (c, rest.drop 8)
    else none
  | c :: rest => (escaped? c).map fun e => (e, rest)
  | [] => none

/-- Reads the rest of a text in double quotes behind the characters read (last one first). Every
step takes a character, so a `fuel` above the length of the text is never used up. -/
def parseBasic : (fuel : Nat) → (read : List Char) → List Char → Option (String × List Char)
  | 0, _, _ => none
  | fuel + 1, read, cs =>
    match cs with
    | '"' :: rest => some (String.ofList read.reverse, rest)
    | '\\' :: rest =>
      match parseEscape rest with
      | some (c, rest) => parseBasic fuel (c :: read) rest
      | none => none
    | c :: rest => if isPlain c then parseBasic fuel (c :: read) rest else none
    | [] => none

/-- Reads the rest of a text in single quotes behind the characters read (last one first). -/
def parseLiteral : (read : List Char) → List Char → Option (String × List Char)
  | read, '\'' :: rest => some (String.ofList read.reverse, rest)
  | read, c :: rest => if isPlain c then parseLiteral (c :: read) rest else none
  | _, [] => none

/-- The rest of a text behind blanks and line ends. -/
def skipLines : (fuel : Nat) → List Char → List Char
  | 0, cs => cs
  | fuel + 1, cs =>
    let cs := cs.dropWhile isBlank
    match newline? cs with
    | some rest => skipLines fuel rest
    | none => cs

/-- The number of quotes at the front of a text, of which a closing triple can have five. -/
def closingQuotes (quote : Char) (cs : List Char) : Nat :=
  ((cs.take 5).takeWhile (· = quote)).length

/-- Reads the rest of a text in tripled quotes behind the characters read (last one first). Every
step takes a character, so a `fuel` above the length of the text is never used up. -/
def parseLines (quote : Char) :
    (fuel : Nat) → (read : List Char) → List Char → Option (String × List Char)
  | 0, _, _ => none
  | fuel + 1, read, cs =>
    match newline? cs with
    | some rest => parseLines quote fuel ('\n' :: read) rest
    | none =>
      match cs with
      | [] => none
      | c :: rest =>
        if c = quote then
          let n := closingQuotes quote cs
          if 3 ≤ n then
            some (String.ofList (List.replicate (n - 3) quote ++ read).reverse, cs.drop n)
          else parseLines quote fuel (c :: read) rest
        else if c = '\\' ∧ quote = '"' then
          match newline? (rest.dropWhile isBlank) with
          | some rest => parseLines quote fuel read (skipLines fuel rest)
          | none =>
            match parseEscape rest with
            | some (e, rest) => parseLines quote fuel (e :: read) rest
            | none => none
        else if isPlain c then parseLines quote fuel (c :: read) rest
        else none

/-- Reads the rest of a text in tripled quotes, without a newline right behind them. -/
def parseTripled (quote : Char) (cs : List Char) : Option (String × List Char) :=
  parseLines quote (cs.length + 1) [] ((newline? cs).getD cs)

/-- Reads a text, if there is one. -/
def parseText? : List Char → Option (String × List Char)
  | '"' :: '"' :: '"' :: rest => parseTripled '"' rest
  | '\'' :: '\'' :: '\'' :: rest => parseTripled '\'' rest
  | '"' :: rest => parseBasic (rest.length + 1) [] rest
  | '\'' :: rest => parseLiteral [] rest
  | _ => none

/-! ### Writing -/

/-- One character between double quotes. -/
def escapeChar (c : Char) : List Char :=
  if c = '"' then ['\\', '"']
  else if c = '\\' then ['\\', '\\']
  else if c = '\n' then ['\\', 'n']
  else if c = '\r' then ['\\', 'r']
  else if c = '\t' then ['\\', 't']
  else if isPlain c then [c]
  else
    let digits := Nat.toDigits 16 c.toNat
    '\\' :: 'u' :: List.replicate (4 - digits.length) '0' ++ digits

/-- A text in double quotes. -/
def quote (s : String) : String :=
  String.ofList ('"' :: s.toList.flatMap escapeChar ++ ['"'])

end FieldWire.Toml
