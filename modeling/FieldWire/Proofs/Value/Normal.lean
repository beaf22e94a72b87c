import FieldWire.Proofs.Registry.Accepted
import FieldWire.Proofs.Value.Shape

/-!
# Normal objects

A plain object has no order that counts and no key twice, so showing an object and reading it again
sorts its fields and keeps the last value of a repeated field only. What comes out is the *normal*
form of the object (`Object.normal`), in which every inner object is normal as well.

* Ordered objects whose fields fit are normal already (`Object.normal_of_ordered`).
* Rules that look at one field at a time survive (`Object.obeys_normal`).
* A normal form is not wider than what it comes from (`Value.width_normal_le`).
-/

namespace FieldWire

namespace Object

/-! ### Sorting -/

private theorem pairwise_insertSorted (p : Field × Value) {fields : Object}
    (h : fields.Pairwise fun q r => q.1.ordinal ≤ r.1.ordinal) :
    (insertSorted p fields).Pairwise fun q r => q.1.ordinal ≤ r.1.ordinal := by
  induction fields with
  | nil => exact List.pairwise_singleton _ _
  | cons q rest ih =>
    obtain ⟨hq, hrest⟩ := List.pairwise_cons.1 h
    rw [insertSorted]
    split
    · next hle =>
      refine List.pairwise_cons.2 ⟨fun r hr => ?_, h⟩
      rcases List.mem_cons.1 hr with rfl | hr
      · exact hle
      · exact Nat.le_trans hle (hq r hr)
    · next hlt =>
      refine List.pairwise_cons.2 ⟨fun r hr => ?_, ih hrest⟩
      rcases List.mem_cons.1 ((insertSorted_perm p rest).mem_iff.1 hr) with rfl | hr
      · omega
      · exact hq r hr

/-- Sorted fields stand by their sort keys. -/
theorem pairwise_sorted (fields : Object) :
    (sorted fields).Pairwise fun p q => p.1.ordinal ≤ q.1.ordinal := by
  induction fields with
  | nil => exact .nil
  | cons p rest ih => exact pairwise_insertSorted p ih

/-- A field whose sort key is not greater than any other is put in front. -/
private theorem insertSorted_of_forall_le {p : Field × Value} {fields : Object}
    (h : ∀ q ∈ fields, p.1.ordinal ≤ q.1.ordinal) : insertSorted p fields = p :: fields := by
  cases fields with
  | nil => rfl
  | cons q rest => rw [insertSorted, if_pos (h q List.mem_cons_self)]

/-- Sorting changes nothing where the fields stand by their sort keys. -/
theorem sorted_of_pairwise {fields : Object}
    (h : fields.Pairwise fun p q => p.1.ordinal ≤ q.1.ordinal) : sorted fields = fields := by
  induction h with
  | nil => rfl
  | @cons p rest hp _ ih =>
    have hsorted : sorted (p :: rest) = insertSorted p (sorted rest) := rfl
    rw [hsorted, ih, insertSorted_of_forall_le hp]

private theorem filter_insertSorted {keep : Field × Value → Bool} (p : Field × Value)
    {fields : Object} (h : fields.Pairwise fun q r => q.1.ordinal ≤ r.1.ordinal) :
    (insertSorted p fields).filter keep =
      if keep p then insertSorted p (fields.filter keep) else fields.filter keep := by
  induction fields with
  | nil => cases hp : keep p <;> simp [insertSorted, hp]
  | cons q rest ih =>
    obtain ⟨hq, hrest⟩ := List.pairwise_cons.1 h
    rw [insertSorted]
    split
    · next hle =>
      -- what is kept behind the place of the new field has no smaller sort key
      have hfront : ∀ r ∈ (q :: rest).filter keep, p.1.ordinal ≤ r.1.ordinal := by
        intro r hr
        rcases List.mem_cons.1 (List.mem_of_mem_filter hr) with rfl | hr
        · exact hle
        · exact Nat.le_trans hle (hq r hr)
      rw [insertSorted_of_forall_le hfront, List.filter_cons]
    · next hlt =>
      rw [List.filter_cons, List.filter_cons, ih hrest]
      cases keep q with
      | true => cases keep p <;> simp [insertSorted, hlt]
      | false => rfl

/-- Fields that are taken out before sorting can as well be taken out afterwards. -/
theorem sorted_filter (keep : Field × Value → Bool) (fields : Object) :
    sorted (fields.filter keep) = (sorted fields).filter keep := by
  induction fields with
  | nil => rfl
  | cons p rest ih =>
    have hsorted : sorted (p :: rest) = insertSorted p (sorted rest) := rfl
    rw [hsorted, filter_insertSorted p (pairwise_sorted rest), ← ih, List.filter_cons]
    cases keep p <;> rfl

/-- An object is ordered if its sort keys increase and its values are ordered. -/
theorem ordered_iff {fields : Object} :
    Obeys .ordered fields ↔ (fields.Pairwise fun p q => p.1.ordinal < q.1.ordinal) ∧
      ∀ p ∈ fields, p.2.Obeys .ordered := by
  induction fields with
  | nil => simp
  | cons p rest ih =>
    obtain ⟨f, v⟩ := p
    rw [obeys_cons, ih, List.pairwise_cons, List.forall_mem_cons]
    exact ⟨fun ⟨hf, hv, hrest, hvalues⟩ => ⟨⟨hf, hrest⟩, hv, hvalues⟩,
      fun ⟨⟨hf, hrest⟩, hv, hvalues⟩ => ⟨hf, hv, hrest, hvalues⟩⟩

/-- The sort keys of written fields of different names increase when the fields are sorted. -/
theorem pairwise_lt_sorted {registry : Registry} (hregistry : registry.WellFormed)
    {fields : Object} (hwritten : ∀ p ∈ fields, p.1 ∈ registry.fields ∧ p.1.serialized = true)
    (hnames : (fields.map fun p => p.1.name).Nodup) :
    (sorted fields).Pairwise fun p q => p.1.ordinal < q.1.ordinal := by
  -- different names are those of different fields, and written fields differ in their sort keys
  have hdifferent : fields.Pairwise fun p q => p.1.ordinal ≠ q.1.ordinal := by
    refine (List.pairwise_map.1 hnames).imp_of_mem fun hp hq hname heq => hname ?_
    obtain ⟨hf, hfs⟩ := hwritten _ hp
    obtain ⟨hg, hgs⟩ := hwritten _ hq
    rw [hregistry.eq_of_ordinal hf hg hfs hgs heq]
  have hsorted := hdifferent.perm (sorted_perm fields).symm Ne.symm
  exact ((pairwise_sorted fields).and hsorted).imp fun h => Nat.lt_of_le_of_ne h.1 h.2

/-- Fields with increasing sort keys are told by which ones they are. -/
theorem eq_of_increasing {fields fields' : Object}
    (h : fields.Pairwise fun p q => p.1.ordinal < q.1.ordinal)
    (h' : fields'.Pairwise fun p q => p.1.ordinal < q.1.ordinal)
    (hmem : ∀ p, p ∈ fields ↔ p ∈ fields') : fields = fields' := by
  have hnodup : ∀ {fields : Object}, (fields.Pairwise fun p q => p.1.ordinal < q.1.ordinal) →
      fields.Nodup := by
    intro fields h
    refine h.imp fun {p q} hlt (heq : p = q) => ?_
    rw [heq] at hlt
    exact Nat.lt_irrefl _ hlt
  have hperm := (List.perm_ext_iff_of_nodup (hnodup h) (hnodup h')).2 hmem
  exact hperm.eq_of_pairwise (fun _ _ _ _ hlt hgt => absurd hlt (Nat.lt_asymm hgt)) h h'

/-- Written fields of different names are ordered when they are sorted, if their values are. -/
theorem ordered_sorted {registry : Registry} (hregistry : registry.WellFormed) {fields : Object}
    (hwritten : ∀ p ∈ fields, p.1 ∈ registry.fields ∧ p.1.serialized = true)
    (hnames : (fields.map fun p => p.1.name).Nodup) (hvalues : ∀ p ∈ fields, p.2.Obeys .ordered) :
    Obeys .ordered (sorted fields) :=
  ordered_iff.2 ⟨pairwise_lt_sorted hregistry hwritten hnames,
    fun p hp => hvalues p ((sorted_perm fields).mem_iff.1 hp)⟩

/-- In an ordered object that fits, the fields behind one have other names. -/
theorem name_ne_of_ordered {registry : Registry} (hregistry : registry.WellFormed) {f : Field}
    {v : Value} {rest : Object} (hfits : Obeys (.fits registry) ((f, v) :: rest))
    (hordered : Obeys .ordered ((f, v) :: rest)) : ∀ q ∈ rest, f.name ≠ q.1.name := by
  intro q hq hname
  obtain ⟨hf, -, hrest⟩ := obeys_cons.1 hfits
  have hg := ((obeys_iff_forall (Rule.isLocal_fits registry)).1 hrest q hq).1
  have hlt := (obeys_cons.1 hordered).1 q hq
  rw [hregistry.eq_of_name hf.mem hg.mem hname] at hlt
  exact Nat.lt_irrefl _ hlt

/-! ### Repeated fields -/

/-- Gives a field a value: in its place, or at the end when there is no field of its name. -/
def put (f : Field) (v : Value) : Object → Object
  | [] => [(f, v)]
  | (g, w) :: rest => if g.name = f.name then (f, v) :: rest else (g, w) :: put f v rest

theorem put_of_fresh {f : Field} {v : Value} {fields : Object}
    (h : ∀ p ∈ fields, p.1.name ≠ f.name) : put f v fields = fields ++ [(f, v)] := by
  induction fields with
  | nil => rfl
  | cons p rest ih =>
    obtain ⟨hp, hrest⟩ := List.forall_mem_cons.1 h
    rw [put, if_neg hp, ih hrest, List.cons_append]

theorem forall_mem_put {P : Field × Value → Prop} {f : Field} {v : Value} {fields : Object}
    (hv : P (f, v)) (h : ∀ p ∈ fields, P p) : ∀ p ∈ put f v fields, P p := by
  induction fields with
  | nil => exact List.forall_mem_singleton.2 hv
  | cons p rest ih =>
    obtain ⟨hp, hrest⟩ := List.forall_mem_cons.1 h
    rw [put]
    split
    · exact List.forall_mem_cons.2 ⟨hv, hrest⟩
    · exact List.forall_mem_cons.2 ⟨hp, ih hrest⟩

theorem nodup_names_put {f : Field} {v : Value} {fields : Object}
    (h : (fields.map fun p => p.1.name).Nodup) :
    ((put f v fields).map fun p => p.1.name).Nodup := by
  induction fields with
  | nil => exact List.pairwise_singleton _ _
  | cons p rest ih =>
    rw [List.map_cons, List.nodup_cons] at h
    rw [put]
    split
    · next hname =>
      rw [List.map_cons, List.nodup_cons]
      exact ⟨hname ▸ h.1, h.2⟩
    · next hname =>
      have hother : ∀ q ∈ put f v rest, q.1.name ≠ p.1.name := by
        refine forall_mem_put (Ne.symm hname) fun q hq heq => h.1 ?_
        exact List.mem_map.2 ⟨q, hq, heq⟩
      rw [List.map_cons, List.nodup_cons]
      refine ⟨fun hmem => ?_, ih h.2⟩
      obtain ⟨q, hq, heq⟩ := List.mem_map.1 hmem
      exact hother q hq heq

end Object

/-! ### Normal forms -/

namespace Value

mutual
/-- The value with its objects sorted and without repeated fields. -/
def normal : Value → Value
  | .object fields => .object (Object.sorted (normalFields fields []))
  | .array elements => .array (normalElements elements)
  | v => v

/-- Puts the normal forms of fields into those already there. -/
def normalFields : List (Field × Value) → Object → Object
  | [], done => done
  | (f, v) :: rest, done => normalFields rest (Object.put f (normal v) done)

/-- The normal forms of elements. -/
def normalElements : List (Field × List (Field × Value)) → List Element
  | [] => []
  | (f, fields) :: rest => (f, Object.sorted (normalFields fields [])) :: normalElements rest
end

end Value

/-- The object by its sort keys, with the last value of every field, and normal values. -/
def Object.normal (fields : Object) : Object := sorted (Value.normalFields fields [])

namespace Value

theorem normal_object (fields : Object) : (object fields).normal = .object fields.normal := by
  rw [normal, Object.normal]

theorem normal_array (elements : List Element) :
    (array elements).normal = .array (normalElements elements) := by
  rw [normal]

theorem normal_of_isLeaf {v : Value} (h : v.IsLeaf) : v.normal = v := by
  cases v
  case object => exact absurd rfl h.1
  case array => exact absurd rfl h.2
  all_goals rw [normal] <;> nofun

@[simp] theorem kind_normal (v : Value) : v.normal.kind = v.kind := by
  obtain hleaf | ⟨fields, rfl⟩ | ⟨elements, rfl⟩ := leaf_or_object_or_array v
  · rw [normal_of_isLeaf hleaf]
  · rw [normal_object]
    rfl
  · rw [normal_array]
    rfl

theorem isProper_normal {v : Value} : v.normal.IsProper ↔ v.IsProper := by
  obtain hleaf | ⟨fields, rfl⟩ | ⟨elements, rfl⟩ := leaf_or_object_or_array v
  · rw [normal_of_isLeaf hleaf]
  · rw [normal_object]
    rfl
  · rw [normal_array]
    rfl

/-! ### Ordered objects -/

variable {registry : Registry}

mutual
/-- An ordered value whose fields fit is normal. -/
theorem normal_of_ordered (hregistry : registry.WellFormed) : (v : Value) →
    v.Obeys (.fits registry) → v.Obeys .ordered → v.normal = v
  | .object fields, hfits, hordered => by
    rw [normal, normalFields_of_ordered hregistry fields (obeys_object.1 hfits)
      (obeys_object.1 hordered) (List.forall_mem_nil _), List.nil_append]
    rw [obeys_object, Object.ordered_iff] at hordered
    rw [Object.sorted_of_pairwise (hordered.1.imp Nat.le_of_lt)]
  | .array elements, hfits, hordered => by
    rw [normal, normalElements_of_ordered hregistry elements (obeys_array.1 hfits)
      (obeys_array.1 hordered)]
  | .uint8 _, _, _ | .uint16 _, _, _ | .uint32 _, _, _ | .uint64 _, _, _ | .hash128 _, _, _
  | .hash160 _, _, _ | .hash256 _, _, _ | .account _, _, _ | .blob _, _, _ | .amount _, _, _
  | .currency _, _, _ | .issue _, _, _ | .vector256 _, _, _ | .pathSet _, _, _ =>
    normal_of_isLeaf ⟨nofun, nofun⟩

/-- Ordered fields that fit are put behind those before them as they are. -/
theorem normalFields_of_ordered (hregistry : registry.WellFormed) :
    (fields : List (Field × Value)) → Object.Obeys (.fits registry) fields →
      Object.Obeys .ordered fields → {done : Object} →
      (∀ p ∈ done, ∀ q ∈ fields, p.1.name ≠ q.1.name) →
        normalFields fields done = done ++ fields
  | [], _, _, done, _ => by rw [normalFields, List.append_nil]
  | (f, v) :: rest, hfits, hordered, done, hfresh => by
    obtain ⟨-, hv, hrest⟩ := Object.obeys_cons.1 hfits
    obtain ⟨-, hv', hrest'⟩ := Object.obeys_cons.1 hordered
    -- nothing before the field has its name, so putting it among them appends it
    have hdone : ∀ p ∈ done, p.1.name ≠ f.name := fun p hp => hfresh p hp _ List.mem_cons_self
    rw [normalFields, normal_of_ordered hregistry v hv hv', Object.put_of_fresh hdone,
      normalFields_of_ordered hregistry rest hrest hrest' ?_, List.append_assoc]
    · rfl
    · intro p hp q hq
      rcases List.mem_append.1 hp with hp | hp
      · exact hfresh p hp q (List.mem_cons_of_mem _ hq)
      · obtain rfl := List.mem_singleton.1 hp
        exact Object.name_ne_of_ordered hregistry hfits hordered q hq

/-- Ordered elements whose fields fit are normal. -/
theorem normalElements_of_ordered (hregistry : registry.WellFormed) :
    (elements : List (Field × List (Field × Value))) → ElementsObey (.fits registry) elements →
      ElementsObey .ordered elements → normalElements elements = elements
  | [], _, _ => by rw [normalElements]
  | (f, fields) :: rest, hfits, hordered => by
    obtain ⟨-, hfields, hrest⟩ := elementsObey_cons.1 hfits
    obtain ⟨-, hfields', hrest'⟩ := elementsObey_cons.1 hordered
    rw [normalElements, normalElements_of_ordered hregistry rest hrest hrest',
      normalFields_of_ordered hregistry fields hfields hfields' (List.forall_mem_nil _),
      List.nil_append,
      Object.sorted_of_pairwise ((Object.ordered_iff.1 hfields').1.imp Nat.le_of_lt)]
end

end Value

/-- An ordered object whose fields fit is normal. -/
theorem Object.normal_of_ordered {registry : Registry} (hregistry : registry.WellFormed)
    {fields : Object} (hfits : Obeys (.fits registry) fields) (hordered : Obeys .ordered fields) :
    fields.normal = fields := by
  have h := Value.normal_of_ordered hregistry (.object fields) (Value.obeys_object.2 hfits)
    (Value.obeys_object.2 hordered)
  rw [Value.normal_object] at h
  exact Value.object.inj h

/-! ### Rules -/

namespace Value

variable {rule : Rule}

private theorem obeys_normal_of_isLeaf {v : Value} (h : v.IsLeaf) : v.normal.Obeys rule := by
  rw [normal_of_isLeaf h]
  exact obeys_of_isLeaf h

mutual
/-- A rule that survives in values survives in normal forms. -/
theorem obeys_normal (hlocal : rule.IsLocal)
    (hentry : ∀ f v, rule.entry f v [] → rule.entry f v.normal []) : (v : Value) →
    v.Obeys rule → v.normal.Obeys rule
  | .object fields, h => by
    rw [normal, obeys_object]
    exact Object.obeys_of_perm hlocal (Object.sorted_perm _).symm
      (obeys_normalFields hlocal hentry fields (obeys_object.1 h) Object.obeys_nil)
  | .array elements, h => by
    rw [normal, obeys_array]
    exact obeys_normalElements hlocal hentry elements (obeys_array.1 h)
  | .uint8 _, _ | .uint16 _, _ | .uint32 _, _ | .uint64 _, _ | .hash128 _, _ | .hash160 _, _
  | .hash256 _, _ | .account _, _ | .blob _, _ | .amount _, _ | .currency _, _ | .issue _, _
  | .vector256 _, _ | .pathSet _, _ => obeys_normal_of_isLeaf ⟨nofun, nofun⟩

/-- A rule that survives in values survives in the normal forms of fields. -/
theorem obeys_normalFields (hlocal : rule.IsLocal)
    (hentry : ∀ f v, rule.entry f v [] → rule.entry f v.normal []) :
    (fields : List (Field × Value)) → Object.Obeys rule fields → {done : Object} →
      Object.Obeys rule done → Object.Obeys rule (normalFields fields done)
  | [], _, done, hdone => by rwa [normalFields]
  | (f, v) :: rest, h, done, hdone => by
    obtain ⟨hf, hv, hrest⟩ := Object.obeys_cons.1 h
    rw [normalFields]
    refine obeys_normalFields hlocal hentry rest hrest ?_
    rw [Object.obeys_iff_forall hlocal] at hdone ⊢
    exact Object.forall_mem_put
      ⟨hentry f v (hlocal f v rest [] hf), obeys_normal hlocal hentry v hv⟩ hdone

/-- A rule that survives in values survives in the normal forms of elements. -/
theorem obeys_normalElements (hlocal : rule.IsLocal)
    (hentry : ∀ f v, rule.entry f v [] → rule.entry f v.normal []) :
    (elements : List (Field × List (Field × Value))) → ElementsObey rule elements →
      ElementsObey rule (normalElements elements)
  | [], _ => by
    rw [normalElements]
    exact elementsObey_nil
  | (f, fields) :: rest, h => by
    obtain ⟨hf, hfields, hrest⟩ := elementsObey_cons.1 h
    rw [normalElements, elementsObey_cons]
    exact ⟨hf, Object.obeys_of_perm hlocal (Object.sorted_perm _).symm
      (obeys_normalFields hlocal hentry fields hfields Object.obeys_nil),
      obeys_normalElements hlocal hentry rest hrest⟩
end

end Value

namespace Object

/-- A rule that survives in values survives in normal objects. -/
theorem obeys_normal {rule : Rule} (hlocal : rule.IsLocal)
    (hentry : ∀ f v, rule.entry f v [] → rule.entry f v.normal []) {fields : Object}
    (h : Obeys rule fields) : Obeys rule fields.normal :=
  obeys_of_perm hlocal (sorted_perm _).symm
    (Value.obeys_normalFields hlocal hentry fields h obeys_nil)

theorem fits_normal {registry : Registry} {fields : Object} (h : Obeys (.fits registry) fields) :
    Obeys (.fits registry) fields.normal :=
  obeys_normal (Rule.isLocal_fits registry) (fun _ v hf => ⟨hf.mem, hf.serialized, hf.not_marker,
    (Value.kind_normal v).trans hf.kind, Value.isProper_normal.2 hf.proper⟩) h

theorem unmarked_normal {fields : Object} (h : Obeys .unmarked fields) :
    Obeys .unmarked fields.normal :=
  obeys_normal Rule.isLocal_unmarked (fun _ _ => id) h

end Object

/-! ### Order -/

namespace Value

/-- No name occurs twice among fields that are put among others one by one. -/
theorem nodup_names_normalFields {fields done : Object}
    (h : (done.map fun p => p.1.name).Nodup) :
    ((normalFields fields done).map fun p => p.1.name).Nodup := by
  induction fields generalizing done with
  | nil => rwa [normalFields]
  | cons p rest ih =>
    rw [normalFields]
    exact ih (Object.nodup_names_put h)

variable {registry : Registry}

private theorem ordered_normal_of_isLeaf {v : Value} (h : v.IsLeaf) :
    v.normal.Obeys .ordered := by
  rw [normal_of_isLeaf h]
  exact obeys_of_isLeaf h

/-- The fields of a normal object are written ones. -/
private theorem written_normalFields {fields : Object} (h : Object.Obeys (.fits registry) fields) :
    ∀ p ∈ normalFields fields [], p.1 ∈ registry.fields ∧ p.1.serialized = true := by
  have hfits : Object.Obeys (.fits registry) (normalFields fields []) :=
    obeys_normalFields (Rule.isLocal_fits registry) (fun _ v hf => ⟨hf.mem, hf.serialized,
      hf.not_marker, (kind_normal v).trans hf.kind, isProper_normal.2 hf.proper⟩) fields h
      Object.obeys_nil
  intro p hp
  have hp := ((Object.obeys_iff_forall (Rule.isLocal_fits registry)).1 hfits p hp).1
  exact ⟨hp.mem, hp.serialized⟩

mutual
/-- The normal form of a value that fits is ordered. -/
theorem ordered_normal (hregistry : registry.WellFormed) : (v : Value) →
    v.Obeys (.fits registry) → v.normal.Obeys .ordered
  | .object fields, h => by
    rw [normal, obeys_object]
    exact Object.ordered_sorted hregistry (written_normalFields (obeys_object.1 h))
      (nodup_names_normalFields List.nodup_nil)
      (ordered_normalFields hregistry fields (obeys_object.1 h) (List.forall_mem_nil _))
  | .array elements, h => by
    rw [normal, obeys_array]
    exact ordered_normalElements hregistry elements (obeys_array.1 h)
  | .uint8 _, _ | .uint16 _, _ | .uint32 _, _ | .uint64 _, _ | .hash128 _, _ | .hash160 _, _
  | .hash256 _, _ | .account _, _ | .blob _, _ | .amount _, _ | .currency _, _ | .issue _, _
  | .vector256 _, _ | .pathSet _, _ => ordered_normal_of_isLeaf ⟨nofun, nofun⟩

/-- The normal forms of the values of fields that fit are ordered. -/
theorem ordered_normalFields (hregistry : registry.WellFormed) :
    (fields : List (Field × Value)) → Object.Obeys (.fits registry) fields → {done : Object} →
      (∀ p ∈ done, p.2.Obeys .ordered) → ∀ p ∈ normalFields fields done, p.2.Obeys .ordered
  | [], _, _, hdone => by rwa [normalFields]
  | (_, v) :: rest, h, _, hdone => by
    obtain ⟨-, hv, hrest⟩ := Object.obeys_cons.1 h
    rw [normalFields]
    exact ordered_normalFields hregistry rest hrest
      (Object.forall_mem_put (ordered_normal hregistry v hv) hdone)

/-- The normal forms of elements that fit are ordered. -/
theorem ordered_normalElements (hregistry : registry.WellFormed) :
    (elements : List (Field × List (Field × Value))) → ElementsObey (.fits registry) elements →
      ElementsObey .ordered (normalElements elements)
  | [], _ => by
    rw [normalElements]
    exact elementsObey_nil
  | (_, fields) :: rest, h => by
    obtain ⟨-, hfields, hrest⟩ := elementsObey_cons.1 h
    rw [normalElements, elementsObey_cons]
    exact ⟨trivial, Object.ordered_sorted hregistry (written_normalFields hfields)
      (nodup_names_normalFields List.nodup_nil)
      (ordered_normalFields hregistry fields hfields (List.forall_mem_nil _)),
      ordered_normalElements hregistry rest hrest⟩
end

end Value

namespace Object

variable {registry : Registry} {fields : Object}

/-- The normal form of an object that fits is ordered. -/
theorem ordered_normal (hregistry : registry.WellFormed) (h : Obeys (.fits registry) fields) :
    Obeys .ordered fields.normal := by
  have hnormal := Value.ordered_normal hregistry (.object fields) (Value.obeys_object.2 h)
  rwa [Value.normal_object, Value.obeys_object] at hnormal

/-- Normal forms are normal. -/
theorem normal_normal (hregistry : registry.WellFormed) (h : Obeys (.fits registry) fields) :
    fields.normal.normal = fields.normal :=
  normal_of_ordered hregistry (fits_normal h) (ordered_normal hregistry h)

end Object

/-! ### Widths -/

private theorem LengthPrefix.width_mono {m n : Nat} (h : m ≤ n) : width m ≤ width n := by
  unfold width
  split_ifs <;> omega

theorem Field.framedWidth_mono (f : Field) {m n : Nat} (h : m ≤ n) :
    f.framedWidth m ≤ f.framedWidth n := by
  have hwidth := LengthPrefix.width_mono h
  unfold framedWidth
  split_ifs <;> omega

namespace Value

/-- The order of fields does not change their width. -/
theorem widthFields_of_perm {fields fields' : Object} (h : fields.Perm fields') :
    widthFields fields = widthFields fields' := by
  induction h with
  | nil => rfl
  | cons p _ ih => rw [widthFields, ih, widthFields]
  | swap p q rest =>
    simp only [widthFields]
    omega
  | trans _ _ ih ih' => exact ih.trans ih'

/-- A field that is put among others adds at most its own bytes. -/
private theorem widthFields_put_le (f : Field) (v : Value) (fields : Object) :
    widthFields (Object.put f v fields) ≤ widthFields fields + widthFields [(f, v)] := by
  induction fields with
  | nil =>
    rw [Object.put]
    exact Nat.le_add_left _ _
  | cons p rest ih =>
    obtain ⟨g, w⟩ := p
    rw [Object.put]
    simp only [widthFields] at ih ⊢
    split
    · rw [widthFields]
      omega
    · rw [widthFields]
      omega

mutual
/-- A normal form is not wider than what it comes from. -/
theorem width_normal_le : (v : Value) → v.normal.width ≤ v.width
  | .object fields => by
    have hfields := widthFields_normalFields_le fields []
    rw [widthFields, Nat.zero_add] at hfields
    rw [normal, width_object, width_object, widthFields_of_perm (Object.sorted_perm _)]
    exact hfields
  | .array elements => by
    rw [normal, width_array, width_array]
    exact widthElements_normalElements_le elements
  | .uint8 _ | .uint16 _ | .uint32 _ | .uint64 _ | .hash128 _ | .hash160 _ | .hash256 _
  | .account _ | .blob _ | .amount _ | .currency _ | .issue _ | .vector256 _ | .pathSet _ =>
    Nat.le_of_eq (congrArg width (normal_of_isLeaf ⟨nofun, nofun⟩))

/-- Fields that are put among others add at most their own bytes. -/
theorem widthFields_normalFields_le : (fields : List (Field × Value)) → (done : Object) →
    widthFields (normalFields fields done) ≤ widthFields done + widthFields fields
  | [], done => by
    rw [normalFields]
    exact Nat.le_add_right _ _
  | (f, v) :: rest, done => by
    have hrest := widthFields_normalFields_le rest (Object.put f (normal v) done)
    have hput := widthFields_put_le f (normal v) done
    have hframed := f.framedWidth_mono (width_normal_le v)
    simp only [widthFields] at hput
    rw [normalFields, widthFields]
    omega

/-- Normal elements are not wider than what they come from. -/
theorem widthElements_normalElements_le : (elements : List (Field × List (Field × Value))) →
    widthElements (normalElements elements) ≤ widthElements elements
  | [] => by rw [normalElements]
  | (f, fields) :: rest => by
    have hfields := widthFields_normalFields_le fields []
    rw [widthFields, Nat.zero_add] at hfields
    have hrest := widthElements_normalElements_le rest
    have hsorted := widthFields_of_perm (Object.sorted_perm (normalFields fields []))
    rw [normalElements, widthElements, widthElements]
    omega
end

end Value

namespace Object

/-- A normal object is not wider than what it comes from. -/
theorem width_normal_le (fields : Object) :
    Value.widthFields fields.normal ≤ Value.widthFields fields := by
  have h := (Value.object fields).width_normal_le
  rwa [Value.normal_object, Value.width_object, Value.width_object] at h

/-- An object that can be written can be written in its normal form. -/
theorem writable_normal {fields : Object} (h : Obeys .writable fields) :
    Obeys .writable fields.normal :=
  obeys_normal Rule.isLocal_writable
    (fun _ v hf hlength => Nat.le_trans v.width_normal_le (hf hlength)) h

end Object

end FieldWire
