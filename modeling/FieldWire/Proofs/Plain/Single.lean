import FieldWire.Proofs.Plain.Reading

/-!
# Plain objects with one member

Plain values that are to show something about a registry are put together from objects with one
member. Such a member is read in a field that takes it (`Registry.Takes`): an object in a field for
objects (`Plain.objectWith_object`), a list in one for arrays (`Plain.objectWith_array`). The items
of the list have one member as well, which names the field that wraps the element
(`Plain.elementWith_obj`).
-/

namespace FieldWire

/-- Members of the field's name are read in it, as values of its kind. -/
structure Registry.Takes (registry : Registry) (onlySigning : Bool) (f : Field) : Prop where
  /-- The field is one of the registry. -/
  mem : f ∈ registry.fields
  /-- The field is no end marker. -/
  not_marker : f.isMarker = false
  /-- The field is written. -/
  serialized : f.serialized = true
  /-- Where only signing fields are wanted, the field is one of them. -/
  signing : onlySigning = true → f.signing = true
  /-- The values of the field have no names. -/
  unnamed : registry.enumTable? f.name = none

/-- In a regular registry fields with named values hold words, so that objects and arrays are taken
by all other written fields. -/
theorem Registry.Regular.takes {registry : Registry} (h : registry.Regular) {onlySigning : Bool}
    {f : Field} (hf : f ∈ registry.fields) (hmarker : f.isMarker = false)
    (hs : f.serialized = true) (hsigning : onlySigning = true → f.signing = true)
    (hkind : f.kind = .object ∨ f.kind = .array) : registry.Takes onlySigning f := by
  refine ⟨hf, hmarker, hs, hsigning, ?_⟩
  by_contra hnamed
  have hword := h.named_word f hf (Option.isSome_iff_ne_none.2 hnamed)
  rcases hkind with hkind | hkind <;> rw [hkind] at hword <;> simp at hword

namespace Plain

variable {context : Context} (hregistry : context.registry.WellFormed) {f : Field}
  {onlySigning : Bool} {fuel : Nat}

include hregistry

/-- An object is read in the field that wraps it. -/
theorem elementWith_obj {convert : Kind → Json → Except Error Value}
    (hf : context.registry.Wraps f) {j : Json} {fields : Object}
    (hj : objectWith context convert false j = .ok fields) :
    elementWith context convert (.obj [(f.name, j)]) = .ok (f, fields) :=
  elementWith_eq_ok_iff.2
    ⟨f.name, j, rfl, hregistry.fieldByName_eq_ok_iff.2 ⟨hf.mem, rfl⟩, hf.element, hj⟩

/-- An object whose only member is neither null nor extended is what its field reads. -/
theorem objectWith_member_eq_ok_iff {convert : Kind → Json → Except Error Value}
    (hf : context.registry.Takes onlySigning f) {j : Json} (hnull : j.isNull = false)
    (hextended : extended? context.addresses j = none) {fields : Object} :
    objectWith context convert onlySigning (.obj [(f.name, j)]) = .ok fields ↔
      ∃ v, convert f.kind j = .ok v ∧ [(f, v)] = fields := by
  have hexpand : expand context.addresses [(f.name, j)] = .ok [(f.name, j)] := by
    rw [expand, expandFrom, hextended]
    rfl
  have hmember : fieldOfMember context convert onlySigning (f.name, j) =
      (withField f.name (convert f.kind j)).map fun v => some (f, v) := by
    have hname := hregistry.fieldByName_eq_ok_iff.2 ⟨hf.mem, rfl⟩
    have hkept : (!f.serialized || (onlySigning && !f.signing)) = false := by
      simpa [hf.serialized] using hf.signing
    simp only [fieldOfMember, hnull, hname, hf.not_marker, hkept, valueOfField, hf.unnamed]
    rfl
  have hread : objectWith context convert onlySigning (.obj [(f.name, j)]) =
      (withField f.name (convert f.kind j)).map fun v => [(f, v)] := by
    simp only [objectWith, Json.obj?, hexpand, collect, hmember]
    cases withField f.name (convert f.kind j) <;> rfl
  simp only [hread, map_eq_ok_iff, withField_eq_ok_iff]

/-- A member that is neither null nor a text is read in its field. -/
theorem objectWith_member {convert : Kind → Json → Except Error Value}
    (hf : context.registry.Takes onlySigning f) {j : Json} (hnull : j.isNull = false)
    (htext : j.str? = none) {v : Value} (hv : convert f.kind j = .ok v) :
    objectWith context convert onlySigning (.obj [(f.name, j)]) = .ok [(f, v)] := by
  have hextended : extended? context.addresses j = none := by
    rw [extended?, htext]
    rfl
  exact (objectWith_member_eq_ok_iff hregistry hf hnull hextended).2 ⟨v, hv, rfl⟩

/-- An object is read in a field for objects. -/
theorem objectWith_object (hf : context.registry.Takes onlySigning f) (hkind : f.kind = .object)
    {j : Json} {fields : Object}
    (hj : objectWith context (valueWith context fuel) false j = .ok fields) :
    objectWith context (valueWith context (fuel + 1)) onlySigning (.obj [(f.name, j)]) =
      .ok [(f, .object fields)] := by
  have hvalue : valueWith context (fuel + 1) f.kind j = .ok (.object fields) := by
    rw [hkind, valueWith_object, hj]
    rfl
  obtain ⟨given, -, -, rfl, -⟩ := objectWith_eq_ok_iff.1 hj
  exact objectWith_member hregistry hf rfl rfl hvalue

/-- A list is read in a field for arrays. -/
theorem objectWith_array (hf : context.registry.Takes onlySigning f) (hkind : f.kind = .array)
    {items : List Json} {elements : List Element}
    (h : List.Forall₂ (fun item e => elementWith context (valueWith context fuel) item = .ok e)
      items elements) :
    objectWith context (valueWith context (fuel + 1)) onlySigning (.obj [(f.name, .arr items)]) =
      .ok [(f, .array elements)] := by
  have helements : arrayWith context (valueWith context fuel) (.arr items) = .ok elements :=
    collect_of_forall₂ (h.imp fun item e he => map_eq_ok_iff.2 ⟨e, he, rfl⟩)
  have hvalue : valueWith context (fuel + 1) f.kind (.arr items) = .ok (.array elements) := by
    rw [hkind, valueWith_array, helements]
    rfl
  exact objectWith_member hregistry hf rfl rfl hvalue

end Plain

end FieldWire
