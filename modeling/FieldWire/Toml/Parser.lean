import FieldWire.Toml.Document
import FieldWire.Toml.Scalar
import FieldWire.Toml.Text

/-!
# TOML documents from text

A document is a sequence of lines: a key with its value, the header of a table, the header of a
listed table, or nothing, each with a comment behind it or none. Lists go over several lines, tables
in braces stay on one. The nesting that a document may ask for is bounded (`maxLevels`).
-/

namespace FieldWire.Toml

/-- The text from its first character that is no blank. -/
def skipBlanks (cs : List Char) : List Char := cs.dropWhile isBlank

/-- The rest of a text behind a comment, if one stands there; a control in it is a fault. -/
def skipComment (cs : List Char) : Option (List Char) :=
  match cs with
  | '#' :: rest =>
    let rest := rest.dropWhile isPlain
    match rest with
    | [] => some []
    | rest => (newline? rest).map fun _ => rest
  | cs => some cs

/-- The rest of a text behind the end of a line, with a comment before it or none. -/
def endLine (cs : List Char) : Option (List Char) :=
  match skipComment (skipBlanks cs) with
  | none => none
  | some [] => some []
  | some rest => newline? rest

/-- The rest of a text behind blanks, line ends and comments. -/
def skipSpace : (fuel : Nat) → List Char → Option (List Char)
  | 0, cs => some cs
  | fuel + 1, cs =>
    match skipComment (skipBlanks cs) with
    | none => none
    | some rest =>
      match newline? rest with
      | some rest => skipSpace fuel rest
      | none => some rest

/-- The greatest number of parts of a key, and of lists and tables in braces within each other. -/
def maxLevels : Nat := 79

/-! ### Keys -/

/-- The characters of keys without quotes. -/
def isKeyChar (c : Char) : Bool := c.isAlphanum || c = '_' || c = '-'

/-- Reads one part of a key. -/
def parseKeyPart (cs : List Char) : Option (String × List Char) :=
  match cs with
  | '"' :: rest => parseBasic (rest.length + 1) [] rest
  | '\'' :: rest => parseLiteral [] rest
  | cs =>
    let (part, rest) := cs.span isKeyChar
    if part.isEmpty then none else some (String.ofList part, rest)

/-- Reads a key: its parts before the last point (the nearest first) and its last part. -/
def parseKeyFrom : (fuel : Nat) → (before : List String) → List Char →
    Option ((List String × String) × List Char)
  | 0, _, _ => none
  | fuel + 1, before, cs =>
    match parseKeyPart (skipBlanks cs) with
    | none => none
    | some (part, rest) =>
      match skipBlanks rest with
      | '.' :: rest => parseKeyFrom fuel (part :: before) rest
      | rest => some ((before.reverse, part), rest)

/-- Reads a key: its parts before the last point, and its last part. -/
def parseKey (cs : List Char) : Option ((List String × String) × List Char) :=
  (parseKeyFrom (cs.length + 1) [] cs).filter fun ((before, _), _) => before.length < maxLevels

/-! ### Values -/

mutual
/-- Reads a value, in which lists and tables in braces may open up to `levels` times within each
other. Every nested call is behind at least one character, so a `fuel` above twice the length of the
text is never used up. -/
def parseValue : (fuel levels : Nat) → List Char → Option (Value × List Char)
  | 0, _, _ => none
  | fuel + 1, levels, cs =>
    match levels, cs with
    | 0, '[' :: _ | 0, '\x7b' :: _ => none
    | levels + 1, '[' :: rest => do
      let (items, rest) ← parseItems fuel levels [] rest
      return (.list items, rest)
    | levels + 1, '\x7b' :: rest =>
      match skipBlanks rest with
      | '\x7d' :: rest => some (.table [], rest)
      | rest => do
        let (members, rest) ← parsePairs fuel levels [] rest
        return (.table (completeMembers members), rest)
    | _, '"' :: _ => (parseText? cs).map fun (s, rest) => (.text s, rest)
    | _, '\'' :: _ => (parseText? cs).map fun (s, rest) => (.text s, rest)
    | _, cs => parseScalar? cs

/-- Reads the items of a list up to its end, behind those already read (last one first). -/
def parseItems : (fuel levels : Nat) → (read : List Value) → List Char →
    Option (List Value × List Char)
  | 0, _, _, _ => none
  | fuel + 1, levels, read, cs =>
    match skipSpace (cs.length + 1) cs with
    | none => none
    | some (']' :: rest) => some (read.reverse, rest)
    | some rest =>
      match parseValue fuel levels rest with
      | none => none
      | some (item, rest) =>
        match skipSpace (rest.length + 1) rest with
        | some (',' :: rest) => parseItems fuel levels (item :: read) rest
        | some (']' :: rest) => some ((item :: read).reverse, rest)
        | _ => none

/-- Reads the members of a table in braces up to its end, into those already read. -/
def parsePairs : (fuel levels : Nat) → (members : Nodes) → List Char →
    Option (Nodes × List Char)
  | 0, _, _, _ => none
  | fuel + 1, levels, members, cs =>
    match parseKey cs with
    | some ((points, key), '=' :: rest) =>
      match parseValue fuel levels (skipBlanks rest) with
      | none => none
      | some (v, rest) =>
        match define points key v .header members with
        | none => none
        | some members =>
          match skipBlanks rest with
          | ',' :: rest => parsePairs fuel levels members rest
          | '\x7d' :: rest => some (members, rest)
          | _ => none
    | _ => none
end

/-! ### Lines -/

/-- Reads the lines of a document into the members already read, of which those at the path `table`
are the ones of the table opened last. Every line takes a character, so a `fuel` above the length of
the text is never used up. -/
def parseDocument : (fuel : Nat) → (table : List String) → Nodes → List Char → Option Nodes
  | 0, _, _, _ => none
  | fuel + 1, table, members, cs =>
    match skipBlanks cs with
    | [] => some members
    | '[' :: '[' :: rest =>
      match parseKey rest with
      | some ((path, key), ']' :: ']' :: rest) =>
        match openListed path key members, endLine rest with
        | some members, some rest => parseDocument fuel (path ++ [key]) members rest
        | _, _ => none
      | _ => none
    | '[' :: rest =>
      match parseKey rest with
      | some ((path, key), ']' :: rest) =>
        match openTable path key members, endLine rest with
        | some members, some rest => parseDocument fuel (path ++ [key]) members rest
        | _, _ => none
      | _ => none
    | c :: rest =>
      if c = '#' ∨ (newline? (c :: rest)).isSome then
        match endLine (c :: rest) with
        | some rest => parseDocument fuel table members rest
        | none => none
      else
        match parseKey (c :: rest) with
        | some ((points, key), '=' :: rest) =>
          match parseValue (2 * rest.length + 2) maxLevels (skipBlanks rest) with
          | none => none
          | some (v, rest) =>
            match defineIn table points key v members, endLine rest with
            | some members, some rest => parseDocument fuel table members rest
            | _, _ => none
        | _ => none

/-- The character that may mark the start of a text. -/
def startMark : Char := '\uFEFF'

/-- The document that a text spells. -/
def parse? (text : String) : Option Table :=
  let cs := text.toList
  let cs := if cs.head? = some startMark then cs.drop 1 else cs
  (parseDocument (cs.length + 1) [] [] cs).map completeMembers

end FieldWire.Toml
