import FieldWire.Proofs.Plain.Levels
import FieldWire.Proofs.Plain.Order

/-!
# Plain forms read back

An object has a plain form exactly if its named values have names (`Object.exists_toJson_iff`). The
plain form of one that fits is read as the normal form of the object (`Object.ofJson_toJson`), so an
object that is normal already reads back as itself. Where the object is ordered, the keys of the
plain form stand in the order of their fields, at every level (`Json.InOrder`,
`Object.inOrder_of_toJson`).

Accounts are written as a lawful address book writes them.
-/

namespace FieldWire

namespace Value

variable {context : Context}

/-! ### Showing fields and elements -/

/-- The plain form of the value of a field: its name where values have names. -/
def fieldToJson (context : Context) (f : Field) (v : Value) : Except Error Json :=
  match context.registry.enumTable? f.name with
  | some table => Plain.enumName f table v
  | none => v.toJson context

theorem fieldsToJson_cons_eq_ok_iff {f : Field} {v : Value} {rest : Object}
    {members result : Members Json} :
    fieldsToJson context ((f, v) :: rest) members = .ok result ↔
      ∃ j, fieldToJson context f v = .ok j ∧
        fieldsToJson context rest (Members.insert f.name j members) = .ok result := by
  rw [fieldsToJson, fieldToJson]
  cases context.registry.enumTable? f.name with
  | some table =>
    dsimp only
    cases Plain.enumName f table v <;> simp
  | none =>
    dsimp only
    cases v.toJson context <;> simp

theorem elementsToJson_cons_eq_ok_iff {f : Field} {fields : Object} {rest : List Element}
    {result : List Json} :
    elementsToJson context ((f, fields) :: rest) = .ok result ↔
      ∃ members items, fieldsToJson context fields [] = .ok members ∧
        elementsToJson context rest = .ok items ∧
          result = .obj [(f.name, .obj members)] :: items := by
  rw [elementsToJson]
  cases fieldsToJson context fields [] with
  | error e => simp
  | ok members => cases elementsToJson context rest <;> simp [eq_comm]

/-- A value that is shown by its name is a leaf with a code, and the code has that name. -/
theorem enumName_eq_ok_iff {f : Field} {table : EnumTable} {v : Value} {j : Json} :
    Plain.enumName f table v = .ok j ↔
      ∃ n name, Plain.wordCode? v = some n ∧ table.nameOf? n = some name ∧ j = .str name := by
  unfold Plain.enumName
  cases hcode : Plain.wordCode? v with
  | none => simp
  | some n => cases hname : table.nameOf? n <;> simp [hname, eq_comm]

theorem isLeaf_of_wordCode? {v : Value} {n : Nat} (h : Plain.wordCode? v = some n) :
    v.IsLeaf := by
  have hleaf : leafOfJson? .hex v.kind (.nat n) = some (.ok v) := leafOfJson?_wordCode? h
  exact (proper_of_leafOfJson? hleaf).1

/-! ### Values with plain forms -/

mutual
/-- A value whose named values have names has a plain form. -/
theorem exists_toJson : (v : Value) → v.Obeys (.named context.registry) →
    ∃ j, v.toJson context = .ok j
  | .object fields, h => by
    obtain ⟨members, hmembers⟩ := exists_fieldsToJson fields (obeys_object.1 h) []
    rw [toJson, hmembers]
    exact ⟨.obj members, rfl⟩
  | .array elements, h => by
    obtain ⟨items, hitems⟩ := exists_elementsToJson elements (obeys_array.1 h)
    rw [toJson, hitems]
    exact ⟨.arr items, rfl⟩
  | .uint8 _, _ | .uint16 _, _ | .uint32 _, _ | .uint64 _, _ | .hash128 _, _ | .hash160 _, _
  | .hash256 _, _ | .account _, _ | .blob _, _ | .amount _, _ | .currency _, _ | .issue _, _
  | .vector256 _, _ | .pathSet _, _ => exists_toJson_of_isLeaf ⟨nofun, nofun⟩

/-- Fields whose named values have names can be shown. -/
theorem exists_fieldsToJson : (fields : List (Field × Value)) →
    Object.Obeys (.named context.registry) fields → (members : Members Json) →
      ∃ result, fieldsToJson context fields members = .ok result
  | [], _, members => by
    rw [fieldsToJson]
    exact ⟨members, rfl⟩
  | (f, v) :: rest, h, members => by
    obtain ⟨hnamed, hv, hrest⟩ := Object.obeys_cons.1 h
    have hvalue : ∃ j, fieldToJson context f v = .ok j := by
      rw [fieldToJson]
      cases htable : context.registry.enumTable? f.name with
      | some table =>
        obtain ⟨n, name, hcode, hname⟩ := hnamed table htable
        exact ⟨.str name, enumName_eq_ok_iff.2 ⟨n, name, hcode, hname, rfl⟩⟩
      | none => exact exists_toJson v hv
    obtain ⟨j, hj⟩ := hvalue
    obtain ⟨result, hresult⟩ := exists_fieldsToJson rest hrest (Members.insert f.name j members)
    exact ⟨result, fieldsToJson_cons_eq_ok_iff.2 ⟨j, hj, hresult⟩⟩

/-- Elements whose named values have names can be shown. -/
theorem exists_elementsToJson : (elements : List (Field × List (Field × Value))) →
    ElementsObey (.named context.registry) elements →
      ∃ items, elementsToJson context elements = .ok items
  | [], _ => by
    rw [elementsToJson]
    exact ⟨[], rfl⟩
  | (f, fields) :: rest, h => by
    obtain ⟨-, hfields, hrest⟩ := elementsObey_cons.1 h
    obtain ⟨members, hmembers⟩ := exists_fieldsToJson fields hfields []
    obtain ⟨items, hitems⟩ := exists_elementsToJson rest hrest
    exact ⟨_, elementsToJson_cons_eq_ok_iff.2 ⟨members, items, hmembers, hitems, rfl⟩⟩
end

mutual
/-- The named values in a value that is shown have names. -/
theorem named_of_toJson : (v : Value) → {j : Json} → v.toJson context = .ok j →
    v.Obeys (.named context.registry)
  | .object fields, j, h => by
    rw [toJson] at h
    obtain ⟨members, hmembers, -⟩ := map_eq_ok_iff.1 h
    exact obeys_object.2 (named_of_fieldsToJson fields hmembers)
  | .array elements, j, h => by
    rw [toJson] at h
    obtain ⟨items, hitems, -⟩ := map_eq_ok_iff.1 h
    exact obeys_array.2 (named_of_elementsToJson elements hitems)
  | .uint8 _, _, _ | .uint16 _, _, _ | .uint32 _, _, _ | .uint64 _, _, _ | .hash128 _, _, _
  | .hash160 _, _, _ | .hash256 _, _, _ | .account _, _, _ | .blob _, _, _ | .amount _, _, _
  | .currency _, _, _ | .issue _, _, _ | .vector256 _, _, _ | .pathSet _, _, _ =>
    obeys_of_isLeaf ⟨nofun, nofun⟩

theorem named_of_fieldsToJson : (fields : List (Field × Value)) → {members result : Members Json} →
    fieldsToJson context fields members = .ok result →
      Object.Obeys (.named context.registry) fields
  | [], _, _, _ => Object.obeys_nil
  | (f, v) :: rest, members, result, h => by
    obtain ⟨j, hj, hrest⟩ := fieldsToJson_cons_eq_ok_iff.1 h
    rw [fieldToJson] at hj
    refine Object.obeys_cons.2 ⟨?_, ?_, named_of_fieldsToJson rest hrest⟩
    · intro table htable
      rw [htable] at hj
      obtain ⟨n, name, hcode, hname, -⟩ := enumName_eq_ok_iff.1 hj
      exact ⟨n, name, hcode, hname⟩
    · cases htable : context.registry.enumTable? f.name with
      | none =>
        rw [htable] at hj
        exact named_of_toJson v hj
      | some table =>
        rw [htable] at hj
        obtain ⟨n, -, hcode, -⟩ := enumName_eq_ok_iff.1 hj
        exact obeys_of_isLeaf (isLeaf_of_wordCode? hcode)

theorem named_of_elementsToJson : (elements : List (Field × List (Field × Value))) →
    {items : List Json} → elementsToJson context elements = .ok items →
      ElementsObey (.named context.registry) elements
  | [], _, _ => elementsObey_nil
  | (f, fields) :: rest, _, h => by
    obtain ⟨members, items, hmembers, hitems, -⟩ := elementsToJson_cons_eq_ok_iff.1 h
    exact elementsObey_cons.2
      ⟨trivial, named_of_fieldsToJson fields hmembers, named_of_elementsToJson rest hitems⟩
end

private theorem isNull_toJson {v : Value} {j : Json} (h : v.toJson context = .ok j) :
    j.isNull = false := by
  cases v
  case object fields =>
    rw [toJson] at h
    obtain ⟨members, -, rfl⟩ := map_eq_ok_iff.1 h
    rfl
  case array elements =>
    rw [toJson] at h
    obtain ⟨items, -, rfl⟩ := map_eq_ok_iff.1 h
    rfl
  case amount a =>
    rw [toJson] at h
    cases h
    cases a <;> rfl
  all_goals
    rw [toJson] at h
    cases h
    rfl

/-! ### Reading back -/

/-- The member is read as the field with its value, however much deeper it could go. -/
def StandsFor (context : Context) (m : String × Json) (p : Field × Value) : Prop :=
  m.1 = p.1.name ∧ ∀ fuel, m.2.depth < fuel →
    Plain.fieldOfMember context (Plain.valueWith context fuel) false m = .ok (some p)

/-- Members that are related to fields of their names stay so when a field is put among them. -/
theorem forall₂_insert_put {R : String × Json → Field × Value → Prop}
    (hname : ∀ m p, R m p → m.1 = p.1.name) {members : Members Json} {fields : Object} {f : Field}
    {v : Value} {j : Json} (hmember : R (f.name, j) (f, v)) (h : List.Forall₂ R members fields) :
    List.Forall₂ R (Members.insert f.name j members) (Object.put f v fields) := by
  induction h with
  | nil => exact .cons hmember .nil
  | @cons m p members fields hmp hrest ih =>
    obtain ⟨key, value⟩ := m
    obtain ⟨g, w⟩ := p
    obtain rfl : key = g.name := hname _ _ hmp
    rw [Members.insert, Object.put]
    split
    · exact .cons hmember hrest
    · exact .cons hmp ih

/-- Members that stand for fields are read as these, sorted. -/
private theorem objectWith_of_standsFor (hbook : context.addresses.IsLawful)
    {members : Members Json} {fields : Object} {fuel : Nat}
    (hfuel : Json.depthMembers members < fuel)
    (h : List.Forall₂ (StandsFor context) members fields) :
    Plain.objectWith context (Plain.valueWith context fuel) false (.obj members) =
      .ok (Object.sorted fields) := by
  refine Plain.objectWith_eq_ok_iff.2 ⟨members, members, fields, rfl, ?_, ?_, rfl⟩
  · exact Plain.expand_of_unextended hbook.unextended members
  · have hdepth : ∀ m ∈ members, m.2.depth < fuel :=
      fun m hm => Nat.lt_of_le_of_lt (Json.depth_le_of_mem_members hm) hfuel
    refine Plain.collect_of_forall₂ ?_
    clear hfuel
    induction h with
    | nil => exact .nil
    | cons hmp _ ih =>
      obtain ⟨hm, hrest⟩ := List.forall_mem_cons.1 hdepth
      exact .cons (hmp.2 fuel hm) (ih hrest)

/-- A shown value stands for its field, if the plain form of its kind reads back. -/
private theorem standsFor_of_fieldToJson (hregistry : context.registry.WellFormed) {f : Field}
    {v : Value} (hfits : context.registry.Fits f v) {j : Json}
    (hvalue : v.toJson context = .ok j → ∀ fuel, j.depth < fuel →
      Plain.valueWith context fuel v.kind j = .ok v.normal)
    (hj : fieldToJson context f v = .ok j) : StandsFor context (f.name, j) (f, v.normal) := by
  have hfield : context.registry.fieldByName f.name = .ok f :=
    hregistry.fieldByName_eq_ok_iff.2 ⟨hfits.mem, rfl⟩
  refine ⟨rfl, fun fuel hfuel => Plain.fieldOfMember_eq_some_iff.2
    ⟨?_, hfield, hfits.not_marker, hfits.serialized, nofun, ?_⟩⟩
  · rw [fieldToJson] at hj
    split at hj
    · obtain ⟨n, name, -, -, rfl⟩ := enumName_eq_ok_iff.1 hj
      rfl
    · exact isNull_toJson hj
  · change Plain.valueOfField context (Plain.valueWith context fuel) f j = .ok v.normal
    rw [fieldToJson] at hj
    rw [Plain.valueOfField]
    cases htable : context.registry.enumTable? f.name with
    | none =>
      rw [htable] at hj
      dsimp only at hj ⊢
      rw [← hfits.kind]
      exact Plain.withField_eq_ok_iff.2 (hvalue hj fuel hfuel)
    | some table =>
      rw [htable] at hj
      obtain ⟨n, name, hcode, hname, rfl⟩ := enumName_eq_ok_iff.1 hj
      have hback := EnumTable.codeOf?_of_nameOf? (hregistry.namesDistinct _ _ htable) hname
      -- a name goes back to the code that it stands for, because no name stands in a table twice
      have henum : Plain.enumCode f table (.str name) = .ok (.int n) := by
        simp only [Plain.enumCode, hback]
      have hleaf : leafOfJson? context.addresses v.kind (.int n) = some (.ok v) :=
        leafOfJson?_wordCode? hcode
      obtain ⟨fuel, rfl⟩ : ∃ k, fuel = k + 1 := ⟨fuel - 1, by omega⟩
      dsimp only
      rw [henum, ← hfits.kind, normal_of_isLeaf (isLeaf_of_wordCode? hcode)]
      dsimp only
      rw [Plain.valueWith_of_leafOfJson? hleaf]
      rfl

private theorem valueWith_toJson_of_isLeaf (hbook : context.addresses.IsLawful) {v : Value}
    {j : Json} (hj : v.toJson context = .ok j) (hleaf : v.IsLeaf) (hproper : v.IsProper)
    {fuel : Nat} (hfuel : j.depth < fuel) :
    Plain.valueWith context fuel v.kind j = .ok v.normal := by
  obtain ⟨fuel, rfl⟩ : ∃ k, fuel = k + 1 := ⟨fuel - 1, by omega⟩
  have hback := leafOfJson?_toJson hbook hleaf hproper hj
  rw [Plain.valueWith_of_leafOfJson? hback, normal_of_isLeaf hleaf]

mutual
/-- The plain form of a value is read as its normal form. -/
theorem valueWith_toJson (hregistry : context.registry.WellFormed)
    (hbook : context.addresses.IsLawful) : (v : Value) → v.Obeys (.fits context.registry) →
      v.IsProper → {j : Json} → v.toJson context = .ok j → (fuel : Nat) → j.depth < fuel →
        Plain.valueWith context fuel v.kind j = .ok v.normal
  | .object fields, hfits, _, j, hj, fuel, hfuel => by
    rw [toJson] at hj
    obtain ⟨members, hmembers, rfl⟩ := map_eq_ok_iff.1 hj
    rw [Json.depth] at hfuel
    obtain ⟨fuel, rfl⟩ : ∃ k, fuel = k + 1 := ⟨fuel - 1, by omega⟩
    have hback := forall₂_fieldsToJson hregistry hbook fields (obeys_object.1 hfits) .nil hmembers
    rw [kind, Plain.valueWith_object, objectWith_of_standsFor hbook (by omega) hback, normal]
    rfl
  | .array elements, hfits, _, j, hj, fuel, hfuel => by
    rw [toJson] at hj
    obtain ⟨items, hitems, rfl⟩ := map_eq_ok_iff.1 hj
    rw [Json.depth] at hfuel
    obtain ⟨fuel, rfl⟩ : ∃ k, fuel = k + 1 := ⟨fuel - 1, by omega⟩
    have hback := forall₂_elementsToJson hregistry hbook elements (obeys_array.1 hfits) hitems fuel
      (by omega)
    have hcollect : Plain.arrayWith context (Plain.valueWith context fuel) (.arr items) =
        .ok (normalElements elements) :=
      Plain.collect_of_forall₂ (hback.imp fun item e he => map_eq_ok_iff.2 ⟨e, he, rfl⟩)
    rw [kind, Plain.valueWith_array, hcollect, normal]
    rfl
  | .uint8 _, _, hproper, _, hj, fuel, hfuel | .uint16 _, _, hproper, _, hj, fuel, hfuel
  | .uint32 _, _, hproper, _, hj, fuel, hfuel | .uint64 _, _, hproper, _, hj, fuel, hfuel
  | .hash128 _, _, hproper, _, hj, fuel, hfuel | .hash160 _, _, hproper, _, hj, fuel, hfuel
  | .hash256 _, _, hproper, _, hj, fuel, hfuel | .account _, _, hproper, _, hj, fuel, hfuel
  | .blob _, _, hproper, _, hj, fuel, hfuel | .amount _, _, hproper, _, hj, fuel, hfuel
  | .currency _, _, hproper, _, hj, fuel, hfuel | .issue _, _, hproper, _, hj, fuel, hfuel
  | .vector256 _, _, hproper, _, hj, fuel, hfuel | .pathSet _, _, hproper, _, hj, fuel, hfuel =>
    valueWith_toJson_of_isLeaf hbook hj ⟨nofun, nofun⟩ hproper hfuel

/-- The plain forms of fields stand for the normal forms of the fields. -/
theorem forall₂_fieldsToJson (hregistry : context.registry.WellFormed)
    (hbook : context.addresses.IsLawful) : (fields : List (Field × Value)) →
      Object.Obeys (.fits context.registry) fields → {members result : Members Json} →
      {done : Object} → List.Forall₂ (StandsFor context) members done →
      fieldsToJson context fields members = .ok result →
        List.Forall₂ (StandsFor context) result (normalFields fields done)
  | [], _, members, result, done, hdone, hresult => by
    rw [fieldsToJson] at hresult
    cases hresult
    rwa [normalFields]
  | (f, v) :: rest, hfits, members, result, done, hdone, hresult => by
    obtain ⟨hf, hv, hrest⟩ := Object.obeys_cons.1 hfits
    obtain ⟨j, hj, hresult⟩ := fieldsToJson_cons_eq_ok_iff.1 hresult
    have hmember : StandsFor context (f.name, j) (f, v.normal) :=
      standsFor_of_fieldToJson hregistry hf (valueWith_toJson hregistry hbook v hv hf.proper) hj
    rw [normalFields]
    exact forall₂_fieldsToJson hregistry hbook rest hrest
      (forall₂_insert_put (fun _ _ h => h.1) hmember hdone) hresult

/-- The plain forms of elements are read as the normal forms of the elements. -/
theorem forall₂_elementsToJson (hregistry : context.registry.WellFormed)
    (hbook : context.addresses.IsLawful) : (elements : List (Field × List (Field × Value))) →
      ElementsObey (.fits context.registry) elements → {items : List Json} →
      elementsToJson context elements = .ok items → (fuel : Nat) → Json.depthItems items ≤ fuel →
        List.Forall₂
          (fun item e => Plain.elementWith context (Plain.valueWith context fuel) item = .ok e)
          items (normalElements elements)
  | [], _, items, hitems, fuel, _ => by
    rw [elementsToJson] at hitems
    cases hitems
    rw [normalElements]
    exact .nil
  | (f, fields) :: rest, hfits, items, hitems, fuel, hfuel => by
    obtain ⟨hf, hfields, hrest⟩ := elementsObey_cons.1 hfits
    obtain ⟨members, items, hmembers, htail, rfl⟩ := elementsToJson_cons_eq_ok_iff.1 hitems
    rw [Json.depthItems, Nat.max_le, Json.depth, Json.depthMembers, Json.depthMembers, Json.depth]
      at hfuel
    rw [normalElements]
    refine .cons ?_ (forall₂_elementsToJson hregistry hbook rest hrest htail fuel hfuel.2)
    have hback := forall₂_fieldsToJson hregistry hbook fields hfields .nil hmembers
    exact Plain.elementWith_eq_ok_iff.2 ⟨f.name, .obj members, rfl,
      hregistry.fieldByName_eq_ok_iff.2 ⟨hf.mem, rfl⟩, hf.element,
      objectWith_of_standsFor hbook (by omega) hback⟩
end

end Value

namespace Object

variable {context : Context} {fields : Object}

/-- An object whose named values have names has a plain form. -/
theorem exists_toJson (h : Obeys (.named context.registry) fields) :
    ∃ j, fields.toJson context = .ok j := by
  obtain ⟨members, hmembers⟩ := Value.exists_fieldsToJson fields h []
  exact ⟨.obj members, map_eq_ok_iff.2 ⟨members, hmembers, rfl⟩⟩

/-- An object has a plain form exactly if its named values have names. -/
theorem exists_toJson_iff :
    (∃ j, fields.toJson context = .ok j) ↔ Obeys (.named context.registry) fields := by
  refine ⟨fun ⟨j, h⟩ => ?_, exists_toJson⟩
  obtain ⟨members, hmembers, -⟩ := map_eq_ok_iff.1 h
  exact Value.named_of_fieldsToJson fields hmembers

/-- The plain form of an object is read as its normal form. -/
theorem ofJson_toJson_of_isLawful (hregistry : context.registry.WellFormed)
    (hbook : context.addresses.IsLawful) (hfits : Obeys (.fits context.registry) fields) {j : Json}
    (h : fields.toJson context = .ok j) : ofJson context false j = .ok fields.normal := by
  obtain ⟨members, hmembers, rfl⟩ := map_eq_ok_iff.1 h
  have hback := Value.forall₂_fieldsToJson hregistry hbook fields hfits .nil hmembers
  have hfuel : Json.depthMembers members < (Json.obj members).depth := by
    rw [Json.depth]
    exact Nat.lt_succ_self _
  exact Value.objectWith_of_standsFor hbook hfuel hback

/-- With accounts in hexadecimal digits the plain form is read as the normal form. -/
theorem ofJson_toJson (hregistry : context.registry.WellFormed) (hhex : context.addresses = .hex)
    (hfits : Obeys (.fits context.registry) fields) {j : Json}
    (h : fields.toJson context = .ok j) : ofJson context false j = .ok fields.normal :=
  ofJson_toJson_of_isLawful hregistry (hhex ▸ AddressBook.isLawful_hex) hfits h

end Object

/-! ### Order -/

/-- The keys of every object that a plain value of a kind shows are names of fields in the order of
their sort keys. -/
inductive Json.InOrder (registry : Registry) : Kind → Json → Prop
  /-- Values of other kinds show no fields. -/
  | leaf (kind : Kind) (j : Json) (hobject : kind ≠ .object) (harray : kind ≠ .array) :
    InOrder registry kind j
  /-- The keys of an object name fields whose sort keys increase, and their values are in order. -/
  | object (entries : List (Field × Json))
    (hfields : ∀ e ∈ entries, registry.fieldByName e.1.name = .ok e.1)
    (hordinals : entries.Pairwise fun d e => d.1.ordinal < e.1.ordinal)
    (hvalues : ∀ e ∈ entries, InOrder registry e.1.kind e.2) :
    InOrder registry .object (.obj (entries.map fun e => (e.1.name, e.2)))
  /-- The objects in an array are in order. -/
  | array (elements : List (String × Json))
    (hvalues : ∀ e ∈ elements, InOrder registry .object e.2) :
    InOrder registry .array (.arr (elements.map fun e => .obj [e]))

theorem Members.insert_of_fresh {β : Type} {members : Members β} {key : String}
    {value : β} (h : ∀ m ∈ members, m.1 ≠ key) :
    Members.insert key value members = members ++ [(key, value)] := by
  induction members with
  | nil => rfl
  | cons m rest ih =>
    obtain ⟨hm, hrest⟩ := List.forall_mem_cons.1 h
    rw [insert, if_neg hm, ih hrest, List.cons_append]

namespace Value

variable {context : Context}

/-- Shown fields of an object that is in order. -/
private theorem inOrder_of_entries (hregistry : context.registry.WellFormed) {fields : Object}
    (hfits : Object.Obeys (.fits context.registry) fields)
    (hordered : Object.Obeys .ordered fields) {entries : List (Field × Json)}
    (hfields : entries.map Prod.fst = fields.map Prod.fst)
    (hvalues : ∀ e ∈ entries, Json.InOrder context.registry e.1.kind e.2) :
    Json.InOrder context.registry .object (.obj (entries.map fun e => (e.1.name, e.2))) := by
  refine .object entries (fun e he => ?_) ?_ hvalues
  · have hmem : e.1 ∈ fields.map Prod.fst := hfields ▸ List.mem_map_of_mem he
    obtain ⟨p, hp, hpe⟩ := List.mem_map.1 hmem
    have hf := ((Object.obeys_iff_forall (Rule.isLocal_fits _)).1 hfits p hp).1.mem
    exact hregistry.fieldByName_eq_ok_iff.2 ⟨hpe ▸ hf, rfl⟩
  · have hordinals := (Object.ordered_iff.1 hordered).1
    rw [← List.pairwise_map (f := Prod.fst) (R := fun f g : Field => f.ordinal < g.ordinal)]
      at hordinals ⊢
    rwa [hfields]

mutual
/-- An ordered value is shown in order. -/
theorem inOrder_of_toJson (hregistry : context.registry.Regular) : (v : Value) →
    v.Obeys (.fits context.registry) → v.Obeys .ordered → {j : Json} → v.toJson context = .ok j →
      Json.InOrder context.registry v.kind j
  | .object fields, hfits, hordered, j, hj => by
    rw [toJson] at hj
    obtain ⟨members, hmembers, rfl⟩ := map_eq_ok_iff.1 hj
    obtain ⟨entries, hfields, hvalues, rfl⟩ := inOrder_of_fieldsToJson hregistry fields
      (obeys_object.1 hfits) (obeys_object.1 hordered) (List.forall_mem_nil _) hmembers
    exact inOrder_of_entries hregistry.accepted.wellFormed (obeys_object.1 hfits)
      (obeys_object.1 hordered) hfields hvalues
  | .array elements, hfits, hordered, j, hj => by
    rw [toJson] at hj
    obtain ⟨items, hitems, rfl⟩ := map_eq_ok_iff.1 hj
    obtain ⟨shown, rfl, hvalues⟩ := inOrder_of_elementsToJson hregistry elements
      (obeys_array.1 hfits) (obeys_array.1 hordered) hitems
    exact .array shown hvalues
  | .uint8 _, _, _, _, _ | .uint16 _, _, _, _, _ | .uint32 _, _, _, _, _ | .uint64 _, _, _, _, _
  | .hash128 _, _, _, _, _ | .hash160 _, _, _, _, _ | .hash256 _, _, _, _, _
  | .account _, _, _, _, _ | .blob _, _, _, _, _ | .amount _, _, _, _, _
  | .currency _, _, _, _, _ | .issue _, _, _, _, _ | .vector256 _, _, _, _, _
  | .pathSet _, _, _, _, _ => .leaf _ _ nofun nofun

/-- Ordered fields are shown behind the members before them, with values in order. -/
theorem inOrder_of_fieldsToJson (hregistry : context.registry.Regular) :
    (fields : List (Field × Value)) → Object.Obeys (.fits context.registry) fields →
      Object.Obeys .ordered fields → {members result : Members Json} →
      (∀ m ∈ members, ∀ q ∈ fields, m.1 ≠ q.1.name) →
      fieldsToJson context fields members = .ok result →
        ∃ entries : List (Field × Json), entries.map Prod.fst = fields.map Prod.fst ∧
          (∀ e ∈ entries, Json.InOrder context.registry e.1.kind e.2) ∧
            result = members ++ entries.map fun e => (e.1.name, e.2)
  | [], _, _, members, result, _, hresult => by
    rw [fieldsToJson] at hresult
    cases hresult
    exact ⟨[], rfl, List.forall_mem_nil _, (List.append_nil _).symm⟩
  | (f, v) :: rest, hfits, hordered, members, result, hfresh, hresult => by
    obtain ⟨hf, hv, hrest⟩ := Object.obeys_cons.1 hfits
    obtain ⟨-, hv', hrest'⟩ := Object.obeys_cons.1 hordered
    obtain ⟨j, hj, hresult⟩ := fieldsToJson_cons_eq_ok_iff.1 hresult
    have hvalue : Json.InOrder context.registry f.kind j := by
      rw [fieldToJson] at hj
      split at hj
      · next table htable =>
        have hword := hregistry.named_word f hf.mem (by rw [htable]; rfl)
        refine .leaf _ _ ?_ ?_ <;> rcases hword with h | h | h <;> rw [h] <;> nofun
      · rw [← hf.kind]
        exact inOrder_of_toJson hregistry v hv hv' hj
    -- names of later fields are new, so every field is inserted at the end
    have hfresh' : ∀ m ∈ members ++ [(f.name, j)], ∀ q ∈ rest, m.1 ≠ q.1.name := by
      intro m hm q hq
      rcases List.mem_append.1 hm with hm | hm
      · exact hfresh m hm q (List.mem_cons_of_mem _ hq)
      · obtain rfl := List.mem_singleton.1 hm
        exact Object.name_ne_of_ordered hregistry.accepted.wellFormed hfits hordered q hq
    rw [Members.insert_of_fresh fun m hm => hfresh m hm _ List.mem_cons_self] at hresult
    obtain ⟨entries, hfields, hvalues, rfl⟩ :=
      inOrder_of_fieldsToJson hregistry rest hrest hrest' hfresh' hresult
    refine ⟨(f, j) :: entries, ?_, List.forall_mem_cons.2 ⟨hvalue, hvalues⟩, ?_⟩
    · rw [List.map_cons, List.map_cons, hfields]
    · rw [List.append_assoc]
      rfl

/-- Ordered elements are shown as objects in order. -/
theorem inOrder_of_elementsToJson (hregistry : context.registry.Regular) :
    (elements : List (Field × List (Field × Value))) →
      ElementsObey (.fits context.registry) elements → ElementsObey .ordered elements →
      {items : List Json} → elementsToJson context elements = .ok items →
        ∃ shown : List (String × Json), items = shown.map (fun e => .obj [e]) ∧
          ∀ e ∈ shown, Json.InOrder context.registry .object e.2
  | [], _, _, items, hitems => by
    rw [elementsToJson] at hitems
    cases hitems
    exact ⟨[], rfl, List.forall_mem_nil _⟩
  | (f, fields) :: rest, hfits, hordered, items, hitems => by
    obtain ⟨-, hfields, hrest⟩ := elementsObey_cons.1 hfits
    obtain ⟨-, hfields', hrest'⟩ := elementsObey_cons.1 hordered
    obtain ⟨members, items, hmembers, htail, rfl⟩ := elementsToJson_cons_eq_ok_iff.1 hitems
    obtain ⟨entries, hnames, hvalues, rfl⟩ := inOrder_of_fieldsToJson hregistry fields hfields
      hfields' (List.forall_mem_nil _) hmembers
    obtain ⟨shown, rfl, hshown⟩ := inOrder_of_elementsToJson hregistry rest hrest hrest' htail
    exact ⟨(f.name, _) :: shown, rfl, List.forall_mem_cons.2
      ⟨inOrder_of_entries hregistry.accepted.wellFormed hfields hfields' hnames hvalues, hshown⟩⟩
end

end Value

/-- An ordered object is shown with its keys in order. -/
theorem Object.inOrder_of_toJson {context : Context} (hregistry : context.registry.Regular)
    {fields : Object} (hfits : Obeys (.fits context.registry) fields)
    (hordered : Obeys .ordered fields) {j : Json} (h : fields.toJson context = .ok j) :
    Json.InOrder context.registry .object j := by
  have hj : (Value.object fields).toJson context = .ok j := by
    rw [Value.toJson]
    exact h
  exact Value.inOrder_of_toJson hregistry (.object fields) (Value.obeys_object.2 hfits)
    (Value.obeys_object.2 hordered) hj

end FieldWire
