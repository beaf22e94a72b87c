import FieldWire.Json.Basic

/-!
# TOML values

A document is a table of named values. Numbers with a fraction and dates keep their spelling, since
no setting is one of them.
-/

namespace FieldWire.Toml

/-- A value of a document. -/
inductive Value where
  /-- A text. -/
  | text (s : String)
  /-- A whole number. -/
  | integer (n : Int)
  /-- A number with a fraction or an exponent, as it is spelled. -/
  | float (spelling : String)
  /-- A truth value. -/
  | boolean (b : Bool)
  /-- A date, a time, or both, as it is spelled. -/
  | date (spelling : String)
  /-- A list. -/
  | list (items : List Value)
  /-- Named values. -/
  | table (members : List (String × Value))

/-- The named values of a document. -/
abbrev Table := Members Value

mutual
/-- The plain form of a value. Of a number that is not whole it keeps only that, and a date becomes
an object without any of the members that settings have. -/
def Value.toPlain : Value → Json
  | .text s => .str s
  | .integer n => .int n
  | .float _ => .num (.real Binary64.zero)
  | .boolean b => .bool b
  | .date spelling => .obj [("date", .str spelling)]
  | .list items => .arr (itemsToPlain items)
  | .table members => .obj (membersToPlain members)

/-- The plain forms of items. -/
def itemsToPlain : List Value → List Json
  | [] => []
  | item :: rest => item.toPlain :: itemsToPlain rest

/-- The plain forms of named values. -/
def membersToPlain : List (String × Value) → Members Json
  | [] => []
  | (key, value) :: rest => (key, value.toPlain) :: membersToPlain rest
end

end FieldWire.Toml
