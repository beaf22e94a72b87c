import FieldWire.Decimal.Shortest
import FieldWire.Json.Basic

/-!
# Plain values as compact text

No blanks are written. In a text the quote, the backslash and the controls below the space are
escaped, with short forms where there are some, and everything else is written as it is.
-/

namespace FieldWire

/-- The number as text. -/
def Number.toText : Number → String
  | int n => toString n
  | real x => x.toText

namespace Json

/-- One character inside a quoted text. -/
def escapeChar (c : Char) : String :=
  if c = '"' then "\\\""
  else if c = '\\' then "\\\\"
  else if c = '\n' then "\\n"
  else if c = '\r' then "\\r"
  else if c = '\t' then "\\t"
  else if c = '\x08' then "\\b"
  else if c = '\x0c' then "\\f"
  else if c.toNat < 0x20 then
    let digits := Nat.toDigits 16 c.toNat
    "\\u" ++ String.ofList (List.replicate (4 - digits.length) '0' ++ digits)
  else String.singleton c

/-- Appends a quoted text. -/
def appendText (out : String) (s : String) : String :=
  (s.foldl (fun out c => if c = '"' ∨ c = '\\' ∨ c.toNat < 0x20 then out ++ escapeChar c
    else out.push c) (out.push '"')).push '"'

mutual
/-- Appends a value to a text. -/
def appendTo (out : String) : Json → String
  | null => out ++ "null"
  | bool b => out ++ (if b then "true" else "false")
  | num n => out ++ n.toText
  | str s => appendText out s
  | arr items => (appendItems (out.push '[') true items).push ']'
  | obj members => (appendMembers (out.push '\x7b') true members).push '\x7d'

/-- Appends items, with commas between them. -/
def appendItems (out : String) (first : Bool) : List Json → String
  | [] => out
  | item :: rest => appendItems (appendTo (if first then out else out.push ',') item) false rest

/-- Appends members, with commas between them. -/
def appendMembers (out : String) (first : Bool) : List (String × Json) → String
  | [] => out
  | (key, value) :: rest =>
    appendMembers (appendTo ((appendText (if first then out else out.push ',') key).push ':') value)
      false rest
end

/-- The compact text of a value. -/
def compact (j : Json) : String := appendTo "" j

end Json

end FieldWire
