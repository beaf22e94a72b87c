import FieldWire.Proofs.Plain.Single
import FieldWire.Proofs.Value.Balance
import FieldWire.Proofs.Value.Delimited

/-!
# Ambiguous registries

A registry is *ambiguous* if the field of its array end marker can wrap elements, some array in it
has no length, and signatures cover an object or an array. Then the header of an element can be the
end of an array, and two objects can be found whose signing fields are written with the same bytes
(`Registry.IsAmbiguous.exists_collision`). Each condition is needed: without one of them, the bytes
of signing fields tell what the fields hold (`Registry.Regular.eq_of_toBytes_of_signing`).

Address books do not matter, because nothing in the two objects is an account.
-/

namespace FieldWire

/-- The header of an element can be taken for the end of an array, inside what signatures cover. -/
def Registry.IsAmbiguous (registry : Registry) : Prop :=
  (∃ f ∈ registry.fields, f.name = arrayEndName ∧ f.kind = .object) ∧
    (∃ f ∈ registry.fields, f.isMarker = false ∧ f.serialized = true ∧ f.kind = .array ∧
      f.variableLength = false) ∧
    ∃ f ∈ registry.fields, f.isMarker = false ∧ f.serialized = true ∧ f.signing = true ∧
      (f.kind = .object ∨ f.kind = .array)

instance (registry : Registry) : Decidable registry.IsAmbiguous :=
  inferInstanceAs (Decidable (_ ∧ _ ∧ _))

/-- A schema in which the array end marker is no object loads as a registry that is not
ambiguous. -/
theorem Registry.not_isAmbiguous_of_load {schema : Schema} {registry : Registry}
    (h : load schema = .ok registry)
    (hentries : ∀ entry ∈ schema.fields, entry.name = arrayEndName →
      entry.type ≠ Kind.object.name) : ¬registry.IsAmbiguous := by
  rintro ⟨⟨f, hf, hname, hkind⟩, -⟩
  obtain ⟨entry, hmem, hentry⟩ := exists_entry_of_load h hf
  refine hentries entry hmem (hentry.name.symm.trans hname) ?_
  rw [← hentry.kind, hkind]

/-- The bundled registry is not ambiguous. -/
theorem Registry.not_isAmbiguous_bundled : ¬bundled.IsAmbiguous :=
  not_isAmbiguous_of_load load_bundled (by decide +kernel)

/-! ### Where bytes tell signing fields apart -/

namespace Registry

variable {registry : Registry} {fields : Object}

/-- Elements are not wrapped in the field of the array end marker if it holds no objects. -/
private theorem unmarked_of_fits (h : ∀ f ∈ registry.fields, f.name = arrayEndName →
    f.kind ≠ .object) (hfits : Object.Obeys (.fits registry) fields) :
    Object.Obeys .unmarked fields := by
  refine Value.fieldsObey_imp (fun _ _ _ _ => trivial) (fun f hf hname => ?_) fields hfits
  exact h f hf.mem hname hf.kind

/-- Arrays stand behind their lengths if all fields for arrays have one. -/
private theorem delimited_of_fits (h : ∀ f ∈ registry.fields, f.isMarker = false →
    f.serialized = true → f.kind = .array → f.variableLength = true)
    (hfits : Object.Obeys (.fits registry) fields) : Object.Obeys .delimited fields := by
  refine Value.fieldsObey_imp (fun f v _ hf => ?_) (fun _ _ => trivial) fields hfits
  exact h f hf.mem hf.not_marker hf.serialized

/-- Fields that hold neither objects nor arrays have no elements. -/
private theorem unmarked_of_leaves (h : ∀ p ∈ fields, p.2.IsLeaf) :
    Object.Obeys .unmarked fields :=
  (Object.obeys_iff_forall Rule.isLocal_unmarked).2 fun p hp =>
    ⟨trivial, Value.obeys_of_isLeaf (h p hp)⟩

/-- The fields that signatures cover are signing fields. -/
theorem signing_of_ofJson {context : Context} {j : Json}
    (h : Object.ofJson context true j = .ok fields) {p : Field × Value} (hp : p ∈ fields) :
    p.1.signing = true := by
  obtain ⟨member, hmember⟩ := Plain.exists_member_of_objectWith h hp
  exact (Plain.fieldOfMember_eq_some_iff.1 hmember).2.2.2.2.1 rfl

/-- **Bytes tell signing fields apart** in a registry that is not ambiguous. -/
theorem Regular.eq_of_toBytes_of_signing {context : Context}
    (hregistry : context.registry.Regular) (h : ¬context.registry.IsAmbiguous) {j j' : Json}
    {fields fields' : Object} (hfields : Object.ofJson context true j = .ok fields)
    (hfields' : Object.ofJson context true j' = .ok fields') {bytes : List UInt8}
    (hbytes : fields.toBytes = .ok bytes) (hbytes' : fields'.toBytes = .ok bytes) :
    fields = fields' := by
  have hfits := Object.fits_of_ofJson hfields
  have hfits' := Object.fits_of_ofJson hfields'
  by_cases hend : ∃ f ∈ context.registry.fields, f.name = arrayEndName ∧ f.kind = .object
  · by_cases harray : ∃ f ∈ context.registry.fields, f.isMarker = false ∧ f.serialized = true ∧
        f.kind = .array ∧ f.variableLength = false
    · -- signatures cover leaves alone, and leaves hold no elements
      have hleaves : ∀ p ∈ fields, p.2.IsLeaf := by
        intro p hp
        have hf := ((Object.obeys_iff_forall (Rule.isLocal_fits _)).1 hfits p hp).1
        have hnone := fun hkind => h ⟨hend, harray, p.1, hf.mem, hf.not_marker, hf.serialized,
          signing_of_ofJson hfields hp, hkind⟩
        rw [← hf.kind] at hnone
        exact ⟨fun hobject => hnone (.inl hobject), fun harray => hnone (.inr harray)⟩
      exact Object.eq_of_toBytes hregistry hfits hfits' hbytes hbytes'
        (.inl (unmarked_of_leaves hleaves))
    · have hlengths : ∀ f ∈ context.registry.fields, f.isMarker = false → f.serialized = true →
          f.kind = .array → f.variableLength = true := by
        intro f hf hmarker hs hkind
        by_contra hlength
        exact harray ⟨f, hf, hmarker, hs, hkind, Bool.eq_false_iff.2 hlength⟩
      exact Object.eq_of_toBytes_of_delimited hregistry hfits hfits'
        (delimited_of_fits hlengths hfits) hbytes hbytes'
  · have hwrapper : ∀ f ∈ context.registry.fields, f.name = arrayEndName → f.kind ≠ .object :=
      fun f hf hname hkind => hend ⟨f, hf, hname, hkind⟩
    exact Object.eq_of_toBytes hregistry hfits hfits' hbytes hbytes'
      (.inl (unmarked_of_fits hwrapper hfits))

end Registry

/-! ### A collision -/

namespace Ambiguity

variable (a e : Field)

/-- An array with two elements, the first of which holds an empty array. -/
def behind : Object := [(a, .array [(e, [(a, .array [])]), (e, [])])]

/-- An array with one element, which holds an array with another one. -/
def inside : Object := [(a, .array [(e, [(a, .array [(e, [])])])])]

/-- The plain form of `behind`. -/
def plainBehind : Json :=
  .obj [(a.name, .arr [.obj [(e.name, .obj [(a.name, .arr [])])], .obj [(e.name, .obj [])]])]

/-- The plain form of `inside`. -/
def plainInside : Json :=
  .obj [(a.name, .arr [.obj [(e.name, .obj [(a.name, .arr [.obj [(e.name, .obj [])]])])]])]

/-- The bytes of both. -/
def bytes : List UInt8 :=
  a.header.bytes ++ arrayEnd :: (a.header.bytes ++
    [arrayEnd, objectEnd, arrayEnd, objectEnd, arrayEnd])

variable {a e}

theorem length_bytes_le (a : Field) : (bytes a).length ≤ 12 := by
  have hheader := a.header.length_bytes_le
  simp only [bytes, List.length_append, List.length_cons, List.length_nil]
  omega

theorem behind_ne_inside : behind a e ≠ inside a e := by
  intro heq
  simp [behind, inside] at heq

private theorem toBytes_array (hkind : a.kind = .array) (hlength : a.variableLength = false)
    {elements : List Element} {inner : List UInt8}
    (hinner : (Value.array elements).toBytes = .ok inner) :
    Object.toBytes [(a, .array elements)] = .ok (a.header.bytes ++ inner) := by
  have hobject : a.kind ≠ .object := by
    rw [hkind]
    decide
  refine Object.toBytes_cons_eq_ok_iff.2 ⟨inner, inner, [], hinner, ?_, Object.toBytes_nil, ?_⟩
  · rw [a.frame_of_fixedLength hlength]
  · rw [Value.closing_of_not_object hobject, List.append_nil, List.append_nil]

private theorem toBytes_cons (he : e.header.bytes = [arrayEnd]) {fields : Object}
    {rest : List Element} {body tail : List UInt8} (hbody : fields.toBytes = .ok body)
    (htail : (Value.array rest).toBytes = .ok tail) :
    (Value.array ((e, fields) :: rest)).toBytes =
      .ok (arrayEnd :: (body ++ objectEnd :: tail)) := by
  refine Value.toBytes_array_cons_eq_ok_iff.2 ⟨body, tail, hbody, htail, ?_⟩
  rw [he]
  rfl

/-- Both objects are written with the same bytes, if the field around the elements has the header
of the array end marker. -/
theorem toBytes_eq (hkind : a.kind = .array) (hlength : a.variableLength = false)
    (he : e.header.bytes = [arrayEnd]) :
    (behind a e).toBytes = .ok (bytes a) ∧ (inside a e).toBytes = .ok (bytes a) := by
  have hlast := toBytes_cons he Object.toBytes_nil Value.toBytes_array_nil
  constructor
  · have hempty := toBytes_array hkind hlength Value.toBytes_array_nil
    rw [behind, toBytes_array hkind hlength (toBytes_cons he hempty hlast)]
    simp [bytes]
  · have hone := toBytes_array hkind hlength hlast
    rw [inside, toBytes_array hkind hlength (toBytes_cons he hone Value.toBytes_array_nil)]
    simp [bytes]

/-- The plain forms are read as the objects. -/
theorem objectWith_plain {context : Context} (hregistry : context.registry.Regular)
    (ha : context.registry.Takes false a) (hkind : a.kind = .array)
    (he : context.registry.Wraps e) (fuel : Nat) :
    Plain.objectWith context (Plain.valueWith context (fuel + 2)) false (plainBehind a e) =
        .ok (behind a e) ∧
      Plain.objectWith context (Plain.valueWith context (fuel + 2)) false (plainInside a e) =
        .ok (inside a e) := by
  have hwell := hregistry.accepted.wellFormed
  have hempty : ∀ convert, Plain.elementWith context convert (.obj [(e.name, .obj [])]) =
      .ok (e, []) := fun _ => Plain.elementWith_obj hwell he rfl
  constructor
  · refine Plain.objectWith_array hwell ha hkind ?_
    refine .cons (Plain.elementWith_obj hwell he ?_) (.cons (hempty _) .nil)
    exact Plain.objectWith_array hwell ha hkind .nil
  · refine Plain.objectWith_array hwell ha hkind ?_
    refine .cons (Plain.elementWith_obj hwell he ?_) .nil
    exact Plain.objectWith_array hwell ha hkind (.cons (hempty _) .nil)

end Ambiguity

/-- Values with the same bytes have the same bytes in one field, if these are not too many for a
length. -/
private theorem Object.exists_toBytes_single {f : Field} {v v' : Value} {inner : List UInt8}
    (hv : v.toBytes = .ok inner) (hv' : v'.toBytes = .ok inner)
    (hlength : inner.length ≤ LengthPrefix.maxLength) :
    ∃ bytes, Object.toBytes [(f, v)] = .ok bytes ∧ Object.toBytes [(f, v')] = .ok bytes := by
  obtain ⟨framed, hframed⟩ : ∃ framed, f.frame inner = .ok framed :=
    Field.exists_frame_iff.2 fun _ => hlength
  have hbytes : ∀ {w : Value}, w.toBytes = .ok inner → Object.toBytes [(f, w)] =
      .ok (f.header.bytes ++ (framed ++ (f.closing ++ []))) := fun hw =>
    toBytes_cons_eq_ok_iff.2 ⟨inner, framed, [], hw, hframed, toBytes_nil, rfl⟩
  exact ⟨_, hbytes hv, hbytes hv'⟩

/-- **Signing fields can be written with the same bytes** and differ in an ambiguous registry. -/
theorem Registry.IsAmbiguous.exists_collision {context : Context}
    (hregistry : context.registry.Regular) (h : context.registry.IsAmbiguous) :
    ∃ j j' fields fields' bytes, Object.ofJson context true j = .ok fields ∧
      Object.ofJson context true j' = .ok fields' ∧ fields.toBytes = .ok bytes ∧
        fields'.toBytes = .ok bytes ∧ fields ≠ fields' := by
  obtain ⟨⟨e, he, hname, hobject⟩, ⟨a, ha, hmarker, hs, hkind, hlength⟩, f, hf, hfmarker, hfs,
    hsigning, hnested⟩ := h
  have hwraps : context.registry.Wraps e := by
    refine ⟨he, ?_⟩
    rw [Field.isElement, hname, hobject]
    rfl
  have hwell := hregistry.accepted.wellFormed
  have hheader : e.header.bytes = [arrayEnd] := by
    obtain ⟨g, hg, hgname, hgbytes⟩ := hwell.arrayEnd
    rw [hwell.eq_of_name he hg (hname.trans hgname.symm), hgbytes]
  obtain ⟨hbehind, hinside⟩ := Ambiguity.toBytes_eq hkind hlength hheader
  have htakes : context.registry.Takes true f :=
    hregistry.takes hf hfmarker hfs (fun _ => hsigning) hnested
  have hplain := Ambiguity.objectWith_plain hregistry
    (hregistry.takes ha hmarker hs (absurd · Bool.false_ne_true) (.inr hkind)) hkind hwraps
  have hheaders := Ambiguity.length_bytes_le a
  rcases hnested with hfkind | hfkind
  · -- the objects stand in the field itself
    have hread : ∀ {fuel : Nat} {x : Json} {y : Object},
        Plain.objectWith context (Plain.valueWith context fuel) false x = .ok y →
          Plain.objectWith context (Plain.valueWith context (fuel + 1)) true
            (.obj [(f.name, x)]) = .ok [(f, .object y)] :=
      Plain.objectWith_object hwell htakes hfkind
    rw [← Value.toBytes_object] at hbehind hinside
    obtain ⟨bytes, hbytes, hbytes'⟩ := Object.exists_toBytes_single hbehind hinside
      (Nat.le_trans hheaders (by decide))
    refine ⟨.obj [(f.name, Ambiguity.plainBehind a e)], .obj [(f.name, Ambiguity.plainInside a e)],
      _, _, bytes, hread (hplain 3).1, hread (hplain 5).2, hbytes, hbytes', ?_⟩
    intro heq
    exact Ambiguity.behind_ne_inside (by simpa using heq)
  · -- an element holds each of them
    have hread : ∀ {fuel : Nat} {x : Json} {y : Object},
        Plain.objectWith context (Plain.valueWith context fuel) false x = .ok y →
          Plain.objectWith context (Plain.valueWith context (fuel + 1)) true
            (.obj [(f.name, .arr [.obj [(e.name, x)]])]) = .ok [(f, .array [(e, y)])] := fun hx =>
      Plain.objectWith_array hwell htakes hfkind
        (.cons (Plain.elementWith_obj hwell hwraps hx) .nil)
    have hbehind' := Ambiguity.toBytes_cons hheader hbehind Value.toBytes_array_nil
    have hinside' := Ambiguity.toBytes_cons hheader hinside Value.toBytes_array_nil
    obtain ⟨bytes, hbytes, hbytes'⟩ := Object.exists_toBytes_single hbehind' hinside' (by
      simp only [List.length_cons, List.length_append, List.length_nil]
      unfold LengthPrefix.maxLength
      omega)
    refine ⟨.obj [(f.name, .arr [.obj [(e.name, Ambiguity.plainBehind a e)]])],
      .obj [(f.name, .arr [.obj [(e.name, Ambiguity.plainInside a e)]])],
      _, _, bytes, hread (hplain 5).1, hread (hplain 7).2, hbytes, hbytes', ?_⟩
    intro heq
    exact Ambiguity.behind_ne_inside (by simpa using heq)

end FieldWire
