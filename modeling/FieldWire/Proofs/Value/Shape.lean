import FieldWire.Proofs.Amount.Basic
import FieldWire.Proofs.PathSet
import FieldWire.Proofs.Wire.Framing
import FieldWire.Proofs.Wire.Writing
import FieldWire.Registry.Basic

/-!
# Conditions on nested values

A *rule* is a condition on the fields of an object, each with its value and the fields behind it,
and a condition on the fields that wrap the elements of an array. A value obeys a rule when it
holds at every level inside the value. The theory starts from four of them, which `Rule.and` puts
together:

* `Rule.fits`: the fields are written fields of a registry, hold values of their kinds, and are no
  end markers; fields around elements can wrap them;
* `Rule.unmarked`: no element is wrapped in the field of the array end marker;
* `Rule.ordered`: the sort keys increase strictly within every object;
* `Rule.writable`: no value behind a length is longer than a length can say.

Two numbers belong to every value: `Value.nesting`, the levels of objects and arrays in it, and
`Value.width`, the bytes that it takes. A fitting value can be written exactly if it obeys
`Rule.writable` (`Value.exists_toBytes_iff`), and then it takes as many bytes as its width says
(`Value.length_of_toBytes`).
-/

namespace FieldWire

/-! ### Rules -/

/-- A condition on every level of a value. -/
structure Rule where
  /-- On a field with its value and the fields behind it. -/
  entry : Field → Value → Object → Prop
  /-- On the field around an element. -/
  wrapper : Field → Prop

namespace Value

mutual
/-- The rule holds everywhere in the value. -/
def Obeys (rule : Rule) : Value → Prop
  | .object fields => FieldsObey rule fields
  | .array elements => ElementsObey rule elements
  | _ => True

/-- The rule holds of the fields and everywhere in their values. -/
def FieldsObey (rule : Rule) : List (Field × Value) → Prop
  | [] => True
  | (f, v) :: rest => rule.entry f v rest ∧ Obeys rule v ∧ FieldsObey rule rest

/-- The rule holds of the fields around the elements and everywhere in these. -/
def ElementsObey (rule : Rule) : List (Field × List (Field × Value)) → Prop
  | [] => True
  | (f, fields) :: rest => rule.wrapper f ∧ FieldsObey rule fields ∧ ElementsObey rule rest
end

end Value

/-- Both rules at once. -/
def Rule.and (rule rule' : Rule) : Rule where
  entry f v rest := rule.entry f v rest ∧ rule'.entry f v rest
  wrapper f := rule.wrapper f ∧ rule'.wrapper f

/-- The rule holds everywhere in the object. -/
abbrev Object.Obeys (rule : Rule) (fields : Object) : Prop := Value.FieldsObey rule fields

/-- The condition on a field does not depend on the fields behind it. -/
def Rule.IsLocal (rule : Rule) : Prop :=
  ∀ f v rest rest', rule.entry f v rest → rule.entry f v rest'

namespace Object

variable {rule : Rule}

@[simp] theorem obeys_nil : Obeys rule [] := by
  rw [Obeys, Value.FieldsObey]
  trivial

@[simp] theorem obeys_cons {f : Field} {v : Value} {rest : Object} :
    Obeys rule ((f, v) :: rest) ↔ rule.entry f v rest ∧ v.Obeys rule ∧ Obeys rule rest := by
  rw [Obeys, Value.FieldsObey]

/-- A rule that looks at one field at a time holds of an object if it holds of each field. -/
theorem obeys_iff_forall (h : rule.IsLocal) {fields : Object} :
    Obeys rule fields ↔ ∀ p ∈ fields, rule.entry p.1 p.2 [] ∧ p.2.Obeys rule := by
  induction fields with
  | nil => simp
  | cons p rest ih =>
    obtain ⟨f, v⟩ := p
    rw [obeys_cons, ih, List.forall_mem_cons, and_assoc]
    exact and_congr_left fun _ => ⟨h f v rest [], h f v [] rest⟩

theorem obeys_of_perm (h : rule.IsLocal) {fields fields' : Object}
    (hperm : fields.Perm fields') (hfields : Obeys rule fields) : Obeys rule fields' := by
  rw [obeys_iff_forall h] at hfields ⊢
  exact fun p hp => hfields p (hperm.mem_iff.2 hp)

end Object

namespace Value

variable {rule : Rule}

/-- The value is neither an object nor an array. -/
def IsLeaf (v : Value) : Prop := v.kind ≠ .object ∧ v.kind ≠ .array

/-- There are leaves, objects and arrays. -/
theorem leaf_or_object_or_array (v : Value) :
    v.IsLeaf ∨ (∃ fields, v = .object fields) ∨ ∃ elements, v = .array elements := by
  cases v
  case object fields => exact .inr (.inl ⟨fields, rfl⟩)
  case array elements => exact .inr (.inr ⟨elements, rfl⟩)
  all_goals exact .inl ⟨nofun, nofun⟩

@[simp] theorem obeys_object {fields : Object} :
    (object fields).Obeys rule ↔ Object.Obeys rule fields := by
  rw [Obeys]

@[simp] theorem obeys_array {elements : List Element} :
    (array elements).Obeys rule ↔ ElementsObey rule elements := by
  rw [Obeys]

theorem obeys_of_isLeaf {v : Value} (h : v.IsLeaf) : v.Obeys rule := by
  cases v
  case object => exact absurd rfl h.1
  case array => exact absurd rfl h.2
  all_goals trivial

@[simp] theorem elementsObey_nil : ElementsObey rule [] := by
  rw [ElementsObey]
  trivial

@[simp] theorem elementsObey_cons {f : Field} {fields : Object} {rest : List Element} :
    ElementsObey rule ((f, fields) :: rest) ↔
      rule.wrapper f ∧ Object.Obeys rule fields ∧ ElementsObey rule rest := by
  rw [ElementsObey]

theorem elementsObey_iff_forall {elements : List Element} : ElementsObey rule elements ↔
    ∀ e ∈ elements, rule.wrapper e.1 ∧ Object.Obeys rule e.2 := by
  induction elements with
  | nil => simp
  | cons e rest ih =>
    obtain ⟨f, fields⟩ := e
    rw [elementsObey_cons, ih, List.forall_mem_cons, and_assoc]

mutual
/-- A value that obeys a rule obeys what follows from it. -/
theorem obeys_imp {rule' : Rule} (hentry : ∀ f v rest, rule.entry f v rest → rule'.entry f v rest)
    (hwrapper : ∀ f, rule.wrapper f → rule'.wrapper f) :
    (v : Value) → v.Obeys rule → v.Obeys rule'
  | .object fields, h => obeys_object.2 (fieldsObey_imp hentry hwrapper fields (obeys_object.1 h))
  | .array elements, h =>
    obeys_array.2 (elementsObey_imp hentry hwrapper elements (obeys_array.1 h))
  | .uint8 _, _ | .uint16 _, _ | .uint32 _, _ | .uint64 _, _ | .hash128 _, _ | .hash160 _, _
  | .hash256 _, _ | .account _, _ | .blob _, _ | .amount _, _ | .currency _, _ | .issue _, _
  | .vector256 _, _ | .pathSet _, _ => obeys_of_isLeaf ⟨nofun, nofun⟩

/-- Fields that obey a rule obey what follows from it. -/
theorem fieldsObey_imp {rule' : Rule}
    (hentry : ∀ f v rest, rule.entry f v rest → rule'.entry f v rest)
    (hwrapper : ∀ f, rule.wrapper f → rule'.wrapper f) :
    (fields : List (Field × Value)) → Object.Obeys rule fields → Object.Obeys rule' fields
  | [], _ => Object.obeys_nil
  | (f, v) :: rest, h => by
    obtain ⟨hf, hv, hrest⟩ := Object.obeys_cons.1 h
    exact Object.obeys_cons.2 ⟨hentry f v rest hf, obeys_imp hentry hwrapper v hv,
      fieldsObey_imp hentry hwrapper rest hrest⟩

theorem elementsObey_imp {rule' : Rule}
    (hentry : ∀ f v rest, rule.entry f v rest → rule'.entry f v rest)
    (hwrapper : ∀ f, rule.wrapper f → rule'.wrapper f) :
    (elements : List (Field × List (Field × Value))) → ElementsObey rule elements →
      ElementsObey rule' elements
  | [], _ => elementsObey_nil
  | (f, fields) :: rest, h => by
    obtain ⟨hf, hfields, hrest⟩ := elementsObey_cons.1 h
    exact elementsObey_cons.2 ⟨hwrapper f hf, fieldsObey_imp hentry hwrapper fields hfields,
      elementsObey_imp hentry hwrapper rest hrest⟩
end

end Value

namespace Value

variable {rule rule' : Rule}

mutual
/-- A value obeys two rules at once if it obeys each of them. -/
theorem obeys_and : (v : Value) → v.Obeys rule → v.Obeys rule' → v.Obeys (rule.and rule')
  | .object fields, h, h' =>
    obeys_object.2 (fieldsObey_and fields (obeys_object.1 h) (obeys_object.1 h'))
  | .array elements, h, h' =>
    obeys_array.2 (elementsObey_and elements (obeys_array.1 h) (obeys_array.1 h'))
  | .uint8 _, _, _ | .uint16 _, _, _ | .uint32 _, _, _ | .uint64 _, _, _ | .hash128 _, _, _
  | .hash160 _, _, _ | .hash256 _, _, _ | .account _, _, _ | .blob _, _, _ | .amount _, _, _
  | .currency _, _, _ | .issue _, _, _ | .vector256 _, _, _ | .pathSet _, _, _ =>
    obeys_of_isLeaf ⟨nofun, nofun⟩

/-- Fields obey two rules at once if they obey each of them. -/
theorem fieldsObey_and : (fields : List (Field × Value)) → Object.Obeys rule fields →
    Object.Obeys rule' fields → Object.Obeys (rule.and rule') fields
  | [], _, _ => Object.obeys_nil
  | (_, v) :: rest, h, h' => by
    obtain ⟨hf, hv, hrest⟩ := Object.obeys_cons.1 h
    obtain ⟨hf', hv', hrest'⟩ := Object.obeys_cons.1 h'
    exact Object.obeys_cons.2 ⟨⟨hf, hf'⟩, obeys_and v hv hv', fieldsObey_and rest hrest hrest'⟩

/-- Elements obey two rules at once if they obey each of them. -/
theorem elementsObey_and : (elements : List (Field × List (Field × Value))) →
    ElementsObey rule elements → ElementsObey rule' elements →
      ElementsObey (rule.and rule') elements
  | [], _, _ => elementsObey_nil
  | (_, fields) :: rest, h, h' => by
    obtain ⟨hf, hfields, hrest⟩ := elementsObey_cons.1 h
    obtain ⟨hf', hfields', hrest'⟩ := elementsObey_cons.1 h'
    exact elementsObey_cons.2 ⟨⟨hf, hf'⟩, fieldsObey_and fields hfields hfields',
      elementsObey_and rest hrest hrest'⟩
end

end Value

/-! ### Fitting values -/

/-- The parts of a leaf are in range and fit together. -/
def Value.IsProper : Value → Prop
  | .amount a => a.IsProper
  | .currency c => c.IsProper
  | .issue i => i.IsProper
  | .pathSet paths => paths.IsProper
  | _ => True

/-- The field is written, no end marker, and holds a value of its kind. -/
structure Registry.Fits (registry : Registry) (f : Field) (v : Value) : Prop where
  /-- The field is one of the registry. -/
  mem : f ∈ registry.fields
  /-- The field is written. -/
  serialized : f.serialized = true
  /-- The field is no end marker. -/
  not_marker : f.isMarker = false
  /-- The value is of the field's kind. -/
  kind : v.kind = f.kind
  /-- The value is proper. -/
  proper : v.IsProper

/-- The field can wrap an element. -/
structure Registry.Wraps (registry : Registry) (f : Field) : Prop where
  /-- The field is one of the registry. -/
  mem : f ∈ registry.fields
  /-- The field holds an object and does not end one. -/
  element : f.isElement = true

namespace Registry.Wraps

variable {registry : Registry} {f : Field}

theorem kind (h : registry.Wraps f) : f.kind = .object := by
  have helement := h.element
  rw [Field.isElement, Bool.and_eq_true] at helement
  exact of_decide_eq_true helement.1

theorem name_ne (h : registry.Wraps f) : f.name ≠ objectEndName := by
  have helement := h.element
  rw [Field.isElement, Bool.and_eq_true] at helement
  exact of_decide_eq_true helement.2

end Registry.Wraps

namespace Rule

/-- Fields fit their values and can wrap their elements. -/
def fits (registry : Registry) : Rule where
  entry f v _ := registry.Fits f v
  wrapper := registry.Wraps

/-- No element is wrapped in the field of the array end marker. -/
def unmarked : Rule where
  entry _ _ _ := True
  wrapper f := f.name ≠ arrayEndName

/-- Every field stands before those behind it. -/
def ordered : Rule where
  entry f _ rest := ∀ p ∈ rest, f.ordinal < p.1.ordinal
  wrapper _ := True

theorem isLocal_fits (registry : Registry) : (fits registry).IsLocal := fun _ _ _ _ h => h

theorem isLocal_unmarked : unmarked.IsLocal := fun _ _ _ _ h => h

end Rule

/-! ### Levels -/

namespace Value

mutual
/-- The levels of objects and arrays in a value, with itself. -/
def nesting : Value → Nat
  | .object fields => nestingFields fields + 1
  | .array elements => nestingElements elements + 1
  | _ => 0

/-- The levels of objects and arrays in the values of fields. -/
def nestingFields : List (Field × Value) → Nat
  | [] => 0
  | (_, v) :: rest => max (nesting v) (nestingFields rest)

/-- The levels of objects and arrays in elements, each of which is an object. -/
def nestingElements : List (Field × List (Field × Value)) → Nat
  | [] => 0
  | (_, fields) :: rest => max (nestingFields fields + 1) (nestingElements rest)
end

end Value

/-- The levels of objects and arrays inside an object. -/
abbrev Object.nesting (fields : Object) : Nat := Value.nestingFields fields

/-! ### Bytes -/

/-- The bytes that a value of a width takes in a field, with its length where the field has one. -/
def Field.framedWidth (f : Field) (width : Nat) : Nat :=
  if f.variableLength then LengthPrefix.width width + width else width

namespace Value

/-- The bytes that a leaf takes. -/
def leafWidth (v : Value) : Nat :=
  match v.toBytes with
  | .ok bytes => bytes.length
  | .error _ => 0

mutual
/-- The bytes that a value takes. -/
def width : Value → Nat
  | .object fields => widthFields fields
  | .array elements => widthElements elements
  | v => v.leafWidth

/-- The bytes that fields with their values take. -/
def widthFields : List (Field × Value) → Nat
  | [] => 0
  | (f, v) :: rest =>
    f.header.bytes.length + (f.framedWidth (width v) + (f.closing.length + widthFields rest))

/-- The bytes that elements and the end marker of their array take. -/
def widthElements : List (Field × List (Field × Value)) → Nat
  | [] => 1
  | (f, fields) :: rest =>
    f.header.bytes.length + (widthFields fields + (widthElements rest + 1))
end

end Value

/-- No value behind a length is longer than a length can say. -/
def Rule.writable : Rule where
  entry f v _ := f.variableLength = true → v.width ≤ LengthPrefix.maxLength
  wrapper _ := True

theorem Rule.isLocal_writable : Rule.writable.IsLocal := fun _ _ _ _ h => h

theorem Field.length_of_frame {f : Field} {inner framed : List UInt8}
    (h : f.frame inner = .ok framed) : framed.length = f.framedWidth inner.length := by
  cases hlength : f.variableLength with
  | true =>
    rw [f.frame_of_variableLength hlength, Writer.prefixed, map_eq_ok_iff] at h
    obtain ⟨head, hhead, rfl⟩ := h
    rw [framedWidth, if_pos hlength, List.length_append, LengthPrefix.length_of_bytes hhead]
  | false =>
    rw [f.frame_of_fixedLength hlength] at h
    cases h
    rw [framedWidth, hlength, if_neg Bool.false_ne_true]

theorem Field.length_le_of_frame {f : Field} {inner framed : List UInt8}
    (h : f.frame inner = .ok framed) : inner.length ≤ framed.length := by
  rw [Field.length_of_frame h, framedWidth]
  split <;> omega

/-- Bytes can be framed if their length can be said where it must be. -/
theorem Field.exists_frame_iff {f : Field} {inner : List UInt8} :
    (∃ framed, f.frame inner = .ok framed) ↔
      (f.variableLength = true → inner.length ≤ LengthPrefix.maxLength) := by
  cases hlength : f.variableLength with
  | true =>
    rw [f.frame_of_variableLength hlength, ← LengthPrefix.bytes_isOk_iff]
    simp only [Writer.prefixed, map_eq_ok_iff, true_implies]
    constructor
    · rintro ⟨-, head, hhead, -⟩
      exact ⟨head, hhead⟩
    · rintro ⟨head, hhead⟩
      exact ⟨_, head, hhead, rfl⟩
  | false => simp [f.frame_of_fixedLength hlength]

namespace Value

/-- A proper leaf can be written. -/
theorem exists_toBytes_of_isLeaf {v : Value} (h : v.IsLeaf) (hproper : v.IsProper) :
    ∃ bytes, v.toBytes = .ok bytes := by
  cases v
  case object => exact absurd rfl h.1
  case array => exact absurd rfl h.2
  case pathSet paths =>
    cases paths with
    | nil => exact absurd rfl hproper.1
    | cons path paths => exact ⟨_, by rw [toBytes, write, Writer.run_appendOf, PathSet.bytes]⟩
  all_goals exact ⟨_, by rw [toBytes, write, Writer.run_append]⟩

theorem width_object (fields : Object) : (object fields).width = widthFields fields := by
  rw [width]

theorem width_array (elements : List Element) :
    (array elements).width = widthElements elements := by
  rw [width]

theorem width_of_isLeaf {v : Value} (h : v.IsLeaf) : v.width = v.leafWidth := by
  cases v
  case object => exact absurd rfl h.1
  case array => exact absurd rfl h.2
  all_goals rw [width] <;> nofun

private theorem length_of_toBytes_leaf {v : Value} (h : v.IsLeaf) {bytes : List UInt8}
    (hbytes : v.toBytes = .ok bytes) : bytes.length = v.width := by
  rw [width_of_isLeaf h, leafWidth, hbytes]

mutual
/-- A value takes as many bytes as its width says. -/
theorem length_of_toBytes : (v : Value) → {bytes : List UInt8} → v.toBytes = .ok bytes →
    bytes.length = v.width
  | .object fields, bytes, h => by
    rw [toBytes_object] at h
    rw [width]
    exact length_of_toBytesFields fields h
  | .array elements, bytes, h => by
    rw [width]
    exact length_of_toBytesElements elements h
  | .uint8 _, _, h | .uint16 _, _, h | .uint32 _, _, h | .uint64 _, _, h | .hash128 _, _, h
  | .hash160 _, _, h | .hash256 _, _, h | .account _, _, h | .blob _, _, h | .amount _, _, h
  | .currency _, _, h | .issue _, _, h | .vector256 _, _, h | .pathSet _, _, h =>
    length_of_toBytes_leaf (by exact ⟨nofun, nofun⟩) h

/-- Fields take as many bytes as their width says. -/
theorem length_of_toBytesFields : (fields : List (Field × Value)) → {bytes : List UInt8} →
    Object.toBytes fields = .ok bytes → bytes.length = widthFields fields
  | [], bytes, h => by
    rw [Object.toBytes_nil] at h
    cases h
    rw [widthFields, List.length_nil]
  | (f, v) :: rest, bytes, h => by
    obtain ⟨inner, framed, tail, hinner, hframed, htail, rfl⟩ := Object.toBytes_cons_eq_ok_iff.1 h
    rw [widthFields, List.length_append, List.length_append, List.length_append,
      Field.length_of_frame hframed, length_of_toBytes v hinner, length_of_toBytesFields rest htail]

/-- Elements take as many bytes as their width says. -/
theorem length_of_toBytesElements : (elements : List (Field × List (Field × Value))) →
    {bytes : List UInt8} → (array elements).toBytes = .ok bytes →
      bytes.length = widthElements elements
  | [], bytes, h => by
    rw [toBytes_array_nil] at h
    cases h
    rw [widthElements, List.length_singleton]
  | (f, fields) :: rest, bytes, h => by
    obtain ⟨body, tail, hbody, htail, rfl⟩ := toBytes_array_cons_eq_ok_iff.1 h
    rw [widthElements, List.length_append, List.length_append, List.length_cons,
      length_of_toBytesFields fields hbody, length_of_toBytesElements rest htail]
end

variable {registry : Registry}

mutual
/-- A fitting value can be written if no value in it is too long for its length. -/
theorem exists_toBytes_iff : (v : Value) → v.Obeys (.fits registry) → v.IsProper →
    ((∃ bytes, v.toBytes = .ok bytes) ↔ v.Obeys .writable)
  | .object fields, h, _ => by
    rw [toBytes_object, obeys_object]
    exact exists_toBytesFields_iff fields (obeys_object.1 h)
  | .array elements, h, _ => by
    rw [obeys_array]
    exact exists_toBytesElements_iff elements (obeys_array.1 h)
  | .uint8 _, _, h | .uint16 _, _, h | .uint32 _, _, h | .uint64 _, _, h | .hash128 _, _, h
  | .hash160 _, _, h | .hash256 _, _, h | .account _, _, h | .blob _, _, h | .amount _, _, h
  | .currency _, _, h | .issue _, _, h | .vector256 _, _, h | .pathSet _, _, h =>
    iff_of_true (exists_toBytes_of_isLeaf ⟨nofun, nofun⟩ h) (obeys_of_isLeaf ⟨nofun, nofun⟩)

/-- Fitting fields can be written if no value in them is too long for its length. -/
theorem exists_toBytesFields_iff : (fields : List (Field × Value)) →
    Object.Obeys (.fits registry) fields →
      ((∃ bytes, Object.toBytes fields = .ok bytes) ↔ Object.Obeys .writable fields)
  | [], _ => iff_of_true ⟨[], Object.toBytes_nil⟩ Object.obeys_nil
  | (f, v) :: rest, h => by
    obtain ⟨hfits, hv, hrest⟩ := Object.obeys_cons.1 h
    rw [Object.obeys_cons, ← exists_toBytes_iff v hv hfits.proper,
      ← exists_toBytesFields_iff rest hrest]
    constructor
    · rintro ⟨bytes, hbytes⟩
      obtain ⟨inner, framed, tail, hinner, hframed, htail, -⟩ :=
        Object.toBytes_cons_eq_ok_iff.1 hbytes
      have hwidth := Field.exists_frame_iff.1 ⟨framed, hframed⟩
      rw [length_of_toBytes v hinner] at hwidth
      exact ⟨hwidth, ⟨inner, hinner⟩, tail, htail⟩
    · rintro ⟨hwidth, ⟨inner, hinner⟩, tail, htail⟩
      obtain ⟨framed, hframed⟩ : ∃ framed, f.frame inner = .ok framed := by
        refine Field.exists_frame_iff.2 ?_
        rw [length_of_toBytes v hinner]
        exact hwidth
      exact ⟨_, Object.toBytes_cons_eq_ok_iff.2
        ⟨inner, framed, tail, hinner, hframed, htail, rfl⟩⟩

/-- Fitting elements can be written if no value in them is too long for its length. -/
theorem exists_toBytesElements_iff : (elements : List (Field × List (Field × Value))) →
    ElementsObey (.fits registry) elements →
      ((∃ bytes, (array elements).toBytes = .ok bytes) ↔ ElementsObey .writable elements)
  | [], _ => iff_of_true ⟨_, toBytes_array_nil⟩ elementsObey_nil
  | (f, fields) :: rest, h => by
    obtain ⟨-, hfields, hrest⟩ := elementsObey_cons.1 h
    rw [elementsObey_cons, ← exists_toBytesFields_iff fields hfields,
      ← exists_toBytesElements_iff rest hrest]
    constructor
    · rintro ⟨bytes, hbytes⟩
      obtain ⟨body, tail, hbody, htail, -⟩ := toBytes_array_cons_eq_ok_iff.1 hbytes
      exact ⟨trivial, ⟨body, hbody⟩, tail, htail⟩
    · rintro ⟨-, ⟨body, hbody⟩, tail, htail⟩
      exact ⟨_, toBytes_array_cons_eq_ok_iff.2 ⟨body, tail, hbody, htail, rfl⟩⟩
end

end Value

end FieldWire
