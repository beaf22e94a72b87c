import FieldWire.Json.Basic
import FieldWire.Json.Parser
import FieldWire.Proofs.Registry.Accepted

/-!
# Keys that occur once

A plain value may repeat a key in an object, but values that are read from texts do not: repeated
keys are merged first (`Json.keysDistinct_of_parse?`). `Json.KeysDistinct` is what holds of them.
-/

namespace FieldWire

namespace Json

/-- Whether this is a list or an object. -/
def isContainer : Json → Bool
  | arr _ => true
  | obj _ => true
  | _ => false

/-- The height of a value without items and members. -/
theorem depth_of_leaf {j : Json} (h : j.isContainer = false) : j.depth = 0 := by
  cases j <;> first | rfl | cases h

mutual
/-- No object in the value has a key twice. -/
def KeysDistinct : Json → Prop
  | .arr items => ItemsDistinct items
  | .obj members => (Members.keys members).Nodup ∧ MembersDistinct members
  | _ => True

/-- No object in the items has a key twice. -/
def ItemsDistinct : List Json → Prop
  | [] => True
  | item :: rest => KeysDistinct item ∧ ItemsDistinct rest

/-- No object in the values of the members has a key twice. -/
def MembersDistinct : List (String × Json) → Prop
  | [] => True
  | (_, value) :: rest => KeysDistinct value ∧ MembersDistinct rest
end

@[simp] theorem keysDistinct_arr {items : List Json} :
    (arr items).KeysDistinct ↔ ∀ item ∈ items, item.KeysDistinct := by
  rw [KeysDistinct]
  induction items with
  | nil => simp [ItemsDistinct]
  | cons item rest ih => rw [ItemsDistinct, ih, List.forall_mem_cons]

theorem membersDistinct_iff_forall {members : List (String × Json)} :
    MembersDistinct members ↔ ∀ m ∈ members, m.2.KeysDistinct := by
  induction members with
  | nil => simp [MembersDistinct]
  | cons m rest ih =>
    obtain ⟨key, value⟩ := m
    rw [MembersDistinct, ih, List.forall_mem_cons]

@[simp] theorem keysDistinct_obj {members : Members Json} :
    (obj members).KeysDistinct ↔
      (Members.keys members).Nodup ∧ ∀ m ∈ members, m.2.KeysDistinct := by
  rw [KeysDistinct, membersDistinct_iff_forall]

theorem keysDistinct_of_leaf {j : Json} (h : j.isContainer = false) : j.KeysDistinct := by
  cases j <;> trivial

/-! ### Merged values -/

private theorem membersDistinct_insert {key : String} {value : Json} {members : Members Json}
    (hvalue : value.KeysDistinct) (h : MembersDistinct members) :
    MembersDistinct (Members.insert key value members) := by
  induction members with
  | nil => exact ⟨hvalue, trivial⟩
  | cons m rest ih =>
    obtain ⟨k, v⟩ := m
    rw [MembersDistinct] at h
    rw [Members.insert]
    split
    · exact ⟨hvalue, h.2⟩
    · exact ⟨h.1, ih h.2⟩

/-- A value without repeated keys can be put into an object without repeated keys. -/
theorem keysDistinct_insert {key : String} {value : Json} {members : Members Json}
    (hvalue : value.KeysDistinct) (h : (obj members).KeysDistinct) :
    (obj (Members.insert key value members)).KeysDistinct :=
  ⟨Members.nodup_keys_insert h.1 key value, membersDistinct_insert hvalue h.2⟩

mutual
/-- Merging leaves every key once. -/
theorem keysDistinct_merged : (j : Json) → j.merged.KeysDistinct
  | .arr items => by
    rw [merged, KeysDistinct]
    exact itemsDistinct_merged items
  | .obj members => by
    rw [merged, KeysDistinct]
    exact distinct_mergedMembers members [] List.nodup_nil trivial
  | .null | .bool _ | .num _ | .str _ => trivial

/-- Merging leaves every key once in items. -/
theorem itemsDistinct_merged : (items : List Json) → ItemsDistinct (mergedItems items)
  | [] => trivial
  | item :: rest => ⟨keysDistinct_merged item, itemsDistinct_merged rest⟩

/-- Merging leaves every key once in members. -/
theorem distinct_mergedMembers : (members : List (String × Json)) → (done : Members Json) →
    (Members.keys done).Nodup → MembersDistinct done →
      (Members.keys (mergedMembers members done)).Nodup ∧
        MembersDistinct (mergedMembers members done)
  | [], _, hkeys, hvalues => ⟨hkeys, hvalues⟩
  | (key, value) :: rest, done, hkeys, hvalues => by
    rw [mergedMembers]
    exact distinct_mergedMembers rest _ (Members.nodup_keys_insert hkeys key _)
      (membersDistinct_insert (keysDistinct_merged value) hvalues)
end

/-- A value that is read from a text has every key once. -/
theorem keysDistinct_of_parse? {text : String} {j : Json} (h : parse? text = some j) :
    j.KeysDistinct := by
  obtain ⟨raw, -, rfl⟩ := Option.map_eq_some_iff.1 h
  exact keysDistinct_merged raw

end Json

end FieldWire
