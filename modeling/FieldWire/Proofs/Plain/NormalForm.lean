import FieldWire.Proofs.Plain.Alike
import FieldWire.Proofs.Plain.Writing
import Mathlib.Data.List.Perm.Basic

/-!
# The plain form of a normal form

An object that fields are read from shows every field once, in its first place and with its last
value, and so does its normal form, except that fields stand there by their sort keys. So if an
object can be shown, its normal form can, and the two plain forms differ at most in the order of the
keys of objects (`Object.toJson_normal`). That is said by `Json.Alike` with the leeway
`Leeway.order`.

The recursion shows fields one by one, and puts their normal forms one by one at the same time: the
members shown so far stay related, one to one, to the fields put so far.
-/

namespace FieldWire

namespace Value

variable {context : Context}

/-! ### Members of fields -/

/-- The member shows the field, up to the order of keys in its value. -/
def ShownAlike (context : Context) (m : String × Json) (p : Field × Value) : Prop :=
  m.1 = p.1.name ∧ ∃ j, fieldToJson context p.1 p.2 = .ok j ∧
    Json.Alike context.registry .order (.ofMember context.registry m.1 (.value .object)) m.2 j

/-- The member shows the field. -/
def Shows (context : Context) (m : String × Json) (p : Field × Value) : Prop :=
  m.1 = p.1.name ∧ fieldToJson context p.1 p.2 = .ok m.2

/-- Fields of different names are shown by members in their order. -/
private theorem fieldsToJson_of_shows {told : Members Json} {fields : Object}
    (h : List.Forall₂ (Shows context) told fields)
    (hnames : (fields.map fun p => p.1.name).Nodup) {members : Members Json}
    (hfresh : ∀ m ∈ members, ∀ p ∈ fields, m.1 ≠ p.1.name) :
    fieldsToJson context fields members = .ok (members ++ told) := by
  induction h generalizing members with
  | nil => rw [fieldsToJson, List.append_nil]
  | @cons m p told fields hmp _ ih =>
    obtain ⟨key, j⟩ := m
    obtain ⟨f, v⟩ := p
    obtain ⟨rfl, hj⟩ := hmp
    rw [List.map_cons, List.nodup_cons] at hnames
    refine fieldsToJson_cons_eq_ok_iff.2 ⟨j, hj, ?_⟩
    rw [Members.insert_of_fresh fun m hm => hfresh m hm _ List.mem_cons_self, ih hnames.2 ?_,
      List.append_assoc]
    · rfl
    · intro m hm p hp hname
      rcases List.mem_append.1 hm with hm | hm
      · exact hfresh m hm p (List.mem_cons_of_mem _ hp) hname
      · obtain rfl := List.mem_singleton.1 hm
        exact hnames.1 (List.mem_map.2 ⟨p, hp, hname.symm⟩)

/-- Members that show fields up to the order of keys share their keys with members that show the
fields. -/
private theorem exists_shared {members : Members Json} {fields : Object}
    (h : List.Forall₂ (ShownAlike context) members fields) :
    ∃ shared : List (String × Json × Json), members = shared.map (fun m => (m.1, m.2.1)) ∧
      List.Forall₂ (Shows context) (shared.map fun m => (m.1, m.2.2)) fields ∧
      ∀ m ∈ shared, Json.Alike context.registry .order
        (.ofMember context.registry m.1 (.value .object)) m.2.1 m.2.2 := by
  induction h with
  | nil => exact ⟨[], rfl, .nil, List.forall_mem_nil _⟩
  | @cons m p _ _ hmp _ ih =>
    obtain ⟨key, j⟩ := m
    obtain ⟨hname, j', hj', halike⟩ := hmp
    obtain ⟨shared, rfl, hshows, hshared⟩ := ih
    exact ⟨(key, j, j') :: shared, rfl, .cons ⟨hname, hj'⟩ hshows,
      List.forall_mem_cons.2 ⟨halike, hshared⟩⟩

/-- Members that show fields up to the order of keys make an object like that of the fields by their
sort keys. -/
private theorem exists_alike_sorted {members : Members Json} {fields : Object}
    (h : List.Forall₂ (ShownAlike context) members fields)
    (hnames : (fields.map fun p => p.1.name).Nodup) :
    ∃ members', fieldsToJson context (Object.sorted fields) [] = .ok members' ∧
      Json.Alike context.registry .order (.value .object) (.obj members) (.obj members') := by
  obtain ⟨shared, rfl, hshows, hshared⟩ := exists_shared h
  have hperm := Object.sorted_perm fields
  obtain ⟨members', hsorted, hmembers⟩ := List.perm_comp_forall₂ hperm hshows.flip
  have hshown := fieldsToJson_of_shows hsorted.flip
    ((hperm.map fun p => p.1.name).nodup_iff.2 hnames) (List.forall_mem_nil _)
  exact ⟨members', hshown, .obj _ shared (.refl _) hmembers hshared⟩

/-! ### Values -/

/-- A shown value of a field shows its normal form, up to the order of keys, if it does so by
itself. -/
private theorem shownAlike_of_fieldToJson (hregistry : context.registry.WellFormed) {f : Field}
    {v : Value} (hfits : context.registry.Fits f v) {j : Json}
    (hvalue : v.toJson context = .ok j → ∃ j', v.normal.toJson context = .ok j' ∧
      Json.Alike context.registry .order (.value v.kind) j j')
    (hj : fieldToJson context f v = .ok j) : ShownAlike context (f.name, j) (f, v.normal) := by
  have hrole : Role.ofMember context.registry f.name (.value .object) = .value v.kind := by
    rw [hfits.kind]
    exact Role.ofMember_of_fieldByName (hregistry.fieldByName_eq_ok_iff.2 ⟨hfits.mem, rfl⟩)
  refine ⟨rfl, ?_⟩
  dsimp only
  rw [hrole]
  rw [fieldToJson] at hj ⊢
  cases htable : context.registry.enumTable? f.name with
  | none =>
    rw [htable] at hj
    exact hvalue hj
  | some table =>
    rw [htable] at hj
    obtain ⟨n, name, hcode, hname, rfl⟩ := enumName_eq_ok_iff.1 hj
    rw [normal_of_isLeaf (isLeaf_of_wordCode? hcode)]
    exact ⟨.str name, hj, .leaf _ rfl⟩

private theorem toJson_normal_of_isLeaf {v : Value} (h : v.IsLeaf) {j : Json}
    (hj : v.toJson context = .ok j) : ∃ j', v.normal.toJson context = .ok j' ∧
      Json.Alike context.registry .order (.value v.kind) j j' := by
  rw [normal_of_isLeaf h]
  exact ⟨j, hj, .refl Leeway.isReflexive_order j _⟩

mutual
/-- A value that can be shown can be shown in its normal form, up to the order of keys as the same. -/
theorem toJson_normal (hregistry : context.registry.WellFormed) : (v : Value) →
    v.Obeys (.fits context.registry) → {j : Json} → v.toJson context = .ok j →
      ∃ j', v.normal.toJson context = .ok j' ∧
        Json.Alike context.registry .order (.value v.kind) j j'
  | .object fields, hfits, j, hj => by
    rw [toJson] at hj
    obtain ⟨members, hmembers, rfl⟩ := map_eq_ok_iff.1 hj
    have hshown := shownAlike_fieldsToJson hregistry fields (obeys_object.1 hfits) .nil hmembers
    obtain ⟨members', hmembers', halike⟩ :=
      exists_alike_sorted hshown (nodup_names_normalFields List.nodup_nil)
    refine ⟨.obj members', ?_, halike⟩
    rw [normal, toJson, hmembers']
    rfl
  | .array elements, hfits, j, hj => by
    rw [toJson] at hj
    obtain ⟨items, hitems, rfl⟩ := map_eq_ok_iff.1 hj
    obtain ⟨pairs, rfl, hitems', halike⟩ :=
      alike_elementsToJson hregistry elements (obeys_array.1 hfits) hitems
    refine ⟨.arr (pairs.map Prod.snd), ?_, .arr _ pairs halike⟩
    rw [normal, toJson, hitems']
    rfl
  | .uint8 _, _, _, hj | .uint16 _, _, _, hj | .uint32 _, _, _, hj | .uint64 _, _, _, hj
  | .hash128 _, _, _, hj | .hash160 _, _, _, hj | .hash256 _, _, _, hj | .account _, _, _, hj
  | .blob _, _, _, hj | .amount _, _, _, hj | .currency _, _, _, hj | .issue _, _, _, hj
  | .vector256 _, _, _, hj | .pathSet _, _, _, hj =>
    toJson_normal_of_isLeaf (by exact ⟨nofun, nofun⟩) hj

/-- Members that show fields show their normal forms, up to the order of keys. -/
theorem shownAlike_fieldsToJson (hregistry : context.registry.WellFormed) :
    (fields : List (Field × Value)) → Object.Obeys (.fits context.registry) fields →
      {members result : Members Json} → {done : Object} →
      List.Forall₂ (ShownAlike context) members done →
      fieldsToJson context fields members = .ok result →
        List.Forall₂ (ShownAlike context) result (normalFields fields done)
  | [], _, members, result, done, hdone, hresult => by
    rw [fieldsToJson] at hresult
    cases hresult
    rwa [normalFields]
  | (f, v) :: rest, hfits, members, result, done, hdone, hresult => by
    obtain ⟨hf, hv, hrest⟩ := Object.obeys_cons.1 hfits
    obtain ⟨j, hj, hresult⟩ := fieldsToJson_cons_eq_ok_iff.1 hresult
    have hmember : ShownAlike context (f.name, j) (f, v.normal) :=
      shownAlike_of_fieldToJson hregistry hf (toJson_normal hregistry v hv) hj
    rw [normalFields]
    exact shownAlike_fieldsToJson hregistry rest hrest
      (forall₂_insert_put (fun _ _ h => h.1) hmember hdone) hresult

/-- Shown elements can be shown in their normal forms, up to the order of keys as the same. -/
theorem alike_elementsToJson (hregistry : context.registry.WellFormed) :
    (elements : List (Field × List (Field × Value))) →
      ElementsObey (.fits context.registry) elements → {items : List Json} →
      elementsToJson context elements = .ok items →
        ∃ pairs : List (Json × Json), items = pairs.map Prod.fst ∧
          elementsToJson context (normalElements elements) = .ok (pairs.map Prod.snd) ∧
          ∀ p ∈ pairs, Json.Alike context.registry .order .element p.1 p.2
  | [], _, items, hitems => by
    rw [elementsToJson] at hitems
    cases hitems
    rw [normalElements, elementsToJson]
    exact ⟨[], rfl, rfl, List.forall_mem_nil _⟩
  | (f, fields) :: rest, hfits, items, hitems => by
    obtain ⟨-, hfields, hrest⟩ := elementsObey_cons.1 hfits
    obtain ⟨members, items, hmembers, htail, rfl⟩ := elementsToJson_cons_eq_ok_iff.1 hitems
    have hshown := shownAlike_fieldsToJson hregistry fields hfields .nil hmembers
    obtain ⟨members', hmembers', halike⟩ :=
      exists_alike_sorted hshown (nodup_names_normalFields List.nodup_nil)
    obtain ⟨pairs, rfl, hitems', hpairs⟩ := alike_elementsToJson hregistry rest hrest htail
    -- the object around an element has one key, so there the order is the same
    have helement : Json.Alike context.registry .order .element (.obj [(f.name, .obj members)])
        (.obj [(f.name, .obj members')]) :=
      .obj _ [(f.name, .obj members, .obj members')] rfl rfl
        (List.forall_mem_singleton.2 halike)
    refine ⟨(.obj [(f.name, .obj members)], .obj [(f.name, .obj members')]) :: pairs, rfl, ?_,
      List.forall_mem_cons.2 ⟨helement, hpairs⟩⟩
    rw [normalElements]
    exact elementsToJson_cons_eq_ok_iff.2 ⟨members', _, hmembers', hitems', rfl⟩
end

end Value

/-- An object that can be shown can be shown in its normal form, and up to the order of keys that is
the same. -/
theorem Object.toJson_normal {context : Context} (hregistry : context.registry.WellFormed)
    {fields : Object} (hfits : Obeys (.fits context.registry) fields) {j : Json}
    (h : fields.toJson context = .ok j) : ∃ j', fields.normal.toJson context = .ok j' ∧
      Json.Alike context.registry .order (.value .object) j j' := by
  have hj : (Value.object fields).toJson context = .ok j := by
    rw [Value.toJson]
    exact h
  obtain ⟨j', hj', halike⟩ :=
    Value.toJson_normal hregistry (.object fields) (Value.obeys_object.2 hfits) hj
  rw [Value.normal_object, Value.toJson] at hj'
  exact ⟨j', hj', halike⟩

end FieldWire
