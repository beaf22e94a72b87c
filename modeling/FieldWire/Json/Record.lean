import FieldWire.Json.Basic

/-!
# Records

A plain value stands for a record of named members in one of two ways: as an object, where keys that
name no member are passed over and a key that names one must not be repeated, or as a list of the
members in order, of which the last may be left out.
-/

namespace FieldWire.Json

/-- The members that a value has of a record, in the order of `names`. Items of a list beyond the
last name are refused unless `surplus` allows them. -/
def record? (names : List String) (surplus : Bool) : Json → Option (List (Option Json))
  | obj members =>
    if names.all fun name => (members.filter fun m => m.1 = name).length ≤ 1 then
      some (names.map (Members.get? members))
    else none
  | arr items =>
    if items.length ≤ names.length then
      some (items.map some ++ List.replicate (names.length - items.length) none)
    else if surplus then some ((items.take names.length).map some)
    else none
  | _ => none

end FieldWire.Json
