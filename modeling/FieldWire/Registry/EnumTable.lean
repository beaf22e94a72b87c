import FieldWire.Json.Members

/-!
# Named values

Some number fields are written with names in plain objects. An enum table lists names with their
codes, every name once.

A table may have several names for one code, and then only one of them stands for it. Which one is
not settled by what the table says: a table that is inverted by hashing keeps the name that its
hashing comes to last. Here it is the first of the entries, whose order thus stands for an order of
hashing. No order is special, as the entries of a table may come in any.
-/

namespace FieldWire

/-- Names with their codes. -/
structure EnumTable where
  /-- The entries in order. -/
  entries : Members Int
deriving DecidableEq, Repr

namespace EnumTable

/-- The code of a name. -/
def codeOf? (table : EnumTable) (name : String) : Option Int := Members.get? table.entries name

/-- The name of a code. Of several names it is the first in the order of the entries, which stands
for the order, whatever it is, in which a hash table goes through them. -/
def nameOf? (table : EnumTable) (code : Int) : Option String :=
  (table.entries.find? fun e => e.2 = code).map Prod.fst

/-- The number of names. -/
def size (table : EnumTable) : Nat := table.entries.length

/-- Whether there are no names. -/
def isEmpty (table : EnumTable) : Bool := table.entries.isEmpty

/-- The name found for a code has that code. -/
theorem mem_of_nameOf?_eq_some {table : EnumTable} {code : Int} {name : String}
    (h : table.nameOf? code = some name) : (name, code) ∈ table.entries := by
  obtain ⟨e, he, rfl⟩ := Option.map_eq_some_iff.1 h
  have hc : e.2 = code := by simpa using List.find?_some he
  exact hc ▸ List.mem_of_find?_eq_some he

end EnumTable

end FieldWire
