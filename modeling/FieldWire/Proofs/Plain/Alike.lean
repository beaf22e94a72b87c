import FieldWire.Proofs.Plain.Keys
import FieldWire.Registry.Basic

/-!
# Plain values that differ in their keys alone

Two plain values can say the same though the members of their objects stand in another order, or
though one of them says of a key that it has no value. What may differ depends on what an object is
read as, which its place decides: its `Role`. A *leeway* says, for every role, which members an
object may be given by, and `Json.Alike` is the relation in which the objects at every level make use
of one leeway. There are two of them:

* `Leeway.content` lets keys stand in any order at every level, and lets keys come and go whose value
  is null, where an object of fields is read;
* `Leeway.order` lets keys stand in any order where an object of fields is read, and nothing else.
-/

namespace FieldWire

/-! ### Roles -/

/-- What a plain value is read as. -/
inductive Role where
  /-- The value of a kind. -/
  | value (kind : Kind)
  /-- An element of an array, which is an object with one key. -/
  | element
  /-- A part of a value that is neither an object nor an array. -/
  | part

namespace Role

/-- The role of the value of a key. -/
def ofMember (registry : Registry) (key : String) : Role → Role
  | value .object =>
    match registry.fieldByName key with
    | .ok f => value f.kind
    | .error _ => part
  | element => value .object
  | _ => part

/-- The role of an item of a list. -/
def ofItem : Role → Role
  | value .array => element
  | _ => part

/-- The value of a key that names a field is of the kind of the field. -/
theorem ofMember_of_fieldByName {registry : Registry} {key : String} {f : Field}
    (h : registry.fieldByName key = .ok f) :
    (value .object).ofMember registry key = value f.kind := by
  rw [ofMember, h]

end Role

/-! ### Leeways -/

/-- Which members an object of a role may be given by, for the members that it has. -/
abbrev Leeway := Role → Members Json → Members Json → Prop

namespace Leeway

/-- Members in any order; an object of fields may have more of them that are null. -/
def content : Leeway
  | .value .object, given, told => (given.filter fun m => !m.2.isNull).Perm told
  | _, given, told => given.Perm told

/-- The members of an object of fields in any order, and those of other objects as they are. -/
def order : Leeway
  | .value .object, given, told => given.Perm told
  | _, given, told => given = told

/-- Every object may be told by some of its own members. -/
def IsReflexive (leeway : Leeway) : Prop :=
  ∀ role members, ∃ told, leeway role members told ∧ told ⊆ members

theorem isReflexive_order : order.IsReflexive := by
  intro role members
  refine ⟨members, ?_, fun _ h => h⟩
  unfold order
  split
  · exact .refl _
  · rfl

theorem isReflexive_content : content.IsReflexive := by
  intro role members
  by_cases hrole : role = .value .object
  · obtain rfl := hrole
    exact ⟨_, .refl _, List.filter_subset_self _⟩
  · refine ⟨members, ?_, fun _ h => h⟩
    unfold content
    split
    · exact absurd rfl hrole
    · exact .refl _

end Leeway

namespace Json

/-- The values are the same up to the leeway of their objects. -/
inductive Alike (registry : Registry) (leeway : Leeway) : Role → Json → Json → Prop
  /-- Values without items and members are the same. -/
  | leaf (role : Role) {j : Json} (hleaf : j.isContainer = false) : Alike registry leeway role j j
  /-- The items of lists are alike one by one. -/
  | arr (role : Role) (pairs : List (Json × Json))
    (hitems : ∀ p ∈ pairs, Alike registry leeway role.ofItem p.1 p.2) :
    Alike registry leeway role (.arr (pairs.map Prod.fst)) (.arr (pairs.map Prod.snd))
  /-- Two objects are told by the same keys, and the values of a key are alike. -/
  | obj (role : Role) {members members' : Members Json} (shared : List (String × Json × Json))
    (htold : leeway role members (shared.map fun m => (m.1, m.2.1)))
    (htold' : leeway role members' (shared.map fun m => (m.1, m.2.2)))
    (hvalues : ∀ m ∈ shared, Alike registry leeway (role.ofMember registry m.1) m.2.1 m.2.2) :
    Alike registry leeway role (.obj members) (.obj members')

namespace Alike

variable {registry : Registry} {leeway : Leeway}

mutual
/-- A value is like itself. -/
theorem refl (hleeway : leeway.IsReflexive) : (j : Json) → (role : Role) →
    Alike registry leeway role j j
  | .arr items, role => by
    have hitems : Alike registry leeway role (.arr ((items.map fun j => (j, j)).map Prod.fst))
        (.arr ((items.map fun j => (j, j)).map Prod.snd)) := by
      refine .arr role _ fun p hp => ?_
      obtain ⟨j, hj, rfl⟩ := List.mem_map.1 hp
      exact refl_items hleeway items j hj role.ofItem
    simpa [Function.comp_def] using hitems
  | .obj members, role => by
    obtain ⟨told, htold, hsubset⟩ := hleeway role members
    refine .obj role (told.map fun m => (m.1, m.2, m.2)) ?_ ?_ fun m hm => ?_
    · simpa [Function.comp_def] using htold
    · simpa [Function.comp_def] using htold
    · obtain ⟨n, hn, rfl⟩ := List.mem_map.1 hm
      exact refl_members hleeway members n (hsubset hn) (role.ofMember registry n.1)
  | .null, role | .bool _, role | .num _, role | .str _, role => .leaf role rfl

/-- Items are like themselves. -/
theorem refl_items (hleeway : leeway.IsReflexive) : (items : List Json) →
    ∀ j ∈ items, ∀ role, Alike registry leeway role j j
  | [] => List.forall_mem_nil _
  | item :: rest =>
    List.forall_mem_cons.2 ⟨refl hleeway item, refl_items hleeway rest⟩

/-- The values of members are like themselves. -/
theorem refl_members (hleeway : leeway.IsReflexive) : (members : List (String × Json)) →
    ∀ m ∈ members, ∀ role, Alike registry leeway role m.2 m.2
  | [] => List.forall_mem_nil _
  | (_, value) :: rest =>
    List.forall_mem_cons.2 ⟨refl hleeway value, refl_members hleeway rest⟩
end

end Alike

end Json

end FieldWire
