import FieldWire.Proofs.Plain.Single
import FieldWire.Proofs.Wire.Transcript
import FieldWire.Codec.Basic

/-!
# Headers that are written

A header leads back to its field if and only if the field is a written one
(`Registry.WellFormed.finds_iff`). A field of an object is always written, because the members of
all others are passed over. Nobody asks that of a field around an element, so the header of such a
field may be written without leading back to it.

Which headers are written is told by the transcript of an object. What a rule says of the fields of
an object and of those around elements, it says of their headers (`Object.meets_transcript`), and a
rule that holds of what plain objects are read as need only be checked on members and on fields that
can wrap an element. So all headers lead back to their fields, for all plain objects, if and only if
the registry is not *permeable*: either every field that can wrap an element is written or no field
takes arrays.
-/

namespace FieldWire

/-! ### Headers in transcripts -/

/-- A header of a field in an object meets one condition, one around an element another. -/
def Piece.Meets (ofEntry ofWrapper : Field → Prop) : Piece → Prop
  | entry f => ofEntry f
  | wrapper f => ofWrapper f
  | octets _ => True

namespace Transcript

/-- All pieces meet the conditions. -/
def Meets (ofEntry ofWrapper : Field → Prop) (t : Transcript) : Prop :=
  ∀ piece ∈ t.pieces, piece.Meets ofEntry ofWrapper

variable {ofEntry ofWrapper : Field → Prop} {t u : Transcript}

theorem meets_empty {failure : Option Error} : Meets ofEntry ofWrapper ⟨[], failure⟩ := nofun

theorem meets_entry {f : Field} (h : ofEntry f) :
    (ofPiece (.entry f)).Meets ofEntry ofWrapper :=
  List.forall_mem_singleton.2 h

theorem meets_wrapper {f : Field} (h : ofWrapper f) :
    (ofPiece (.wrapper f)).Meets ofEntry ofWrapper :=
  List.forall_mem_singleton.2 h

theorem meets_octets {bytes : List UInt8} : (ofPiece (.octets bytes)).Meets ofEntry ofWrapper :=
  List.forall_mem_singleton.2 trivial

theorem meets_ofResult {result : Except Error (List UInt8)} :
    (ofResult result).Meets ofEntry ofWrapper := by
  cases result with
  | ok bytes => exact meets_octets
  | error e => exact meets_empty

theorem Meets.andThen (ht : t.Meets ofEntry ofWrapper) (hu : u.Meets ofEntry ofWrapper) :
    (t.andThen u).Meets ofEntry ofWrapper := by
  unfold Transcript.andThen
  split
  · exact List.forall_mem_append.2 ⟨ht, hu⟩
  · exact ht

theorem Meets.behindLength (ht : t.Meets ofEntry ofWrapper) :
    t.behindLength.Meets ofEntry ofWrapper := by
  unfold Transcript.behindLength
  split
  · exact meets_empty
  · exact meets_ofResult.andThen ht

theorem Meets.inField (ht : t.Meets ofEntry ofWrapper) (f : Field) :
    (t.inField f).Meets ofEntry ofWrapper := by
  unfold Transcript.inField
  split
  · exact ht.behindLength
  · exact ht

end Transcript

/-! ### Rules on headers -/

/-- The rule that asks for the conditions on the fields of objects and on those around elements. -/
def Rule.ofHeaders (ofEntry ofWrapper : Field → Prop) : Rule where
  entry f _ _ := ofEntry f
  wrapper := ofWrapper

/-- No field holds an array. -/
def Rule.flat : Rule where
  entry _ v _ := v.kind ≠ .array
  wrapper _ := True

theorem Rule.isLocal_flat : flat.IsLocal := fun _ _ _ _ h => h

namespace Value

variable {ofEntry ofWrapper : Field → Prop}

mutual
/-- What a rule says of fields holds of the headers that are written for a value. -/
theorem meets_transcript : (v : Value) → v.Obeys (.ofHeaders ofEntry ofWrapper) →
    v.transcript.Meets ofEntry ofWrapper
  | .object fields, h => by
    rw [transcript]
    exact meets_transcriptFields fields (obeys_object.1 h)
  | .array elements, h => by
    rw [transcript]
    exact meets_transcriptElements elements (obeys_array.1 h)
  | .uint8 _, _ | .uint16 _, _ | .uint32 _, _ | .uint64 _, _ | .hash128 _, _ | .hash160 _, _
  | .hash256 _, _ | .account _, _ | .blob _, _ | .amount _, _ | .currency _, _ | .issue _, _
  | .vector256 _, _ | .pathSet _, _ => by
    simp only [transcript]
    exact Transcript.meets_ofResult

theorem meets_transcriptFields : (fields : List (Field × Value)) →
    Object.Obeys (.ofHeaders ofEntry ofWrapper) fields →
      (transcriptFields fields).Meets ofEntry ofWrapper
  | [], _ => by
    rw [transcriptFields]
    exact Transcript.meets_empty
  | (f, v) :: rest, h => by
    obtain ⟨hf, hv, hrest⟩ := Object.obeys_cons.1 h
    rw [transcriptFields]
    exact ((Transcript.meets_entry hf).andThen ((meets_transcript v hv).inField f)).andThen
      (Transcript.meets_octets.andThen (meets_transcriptFields rest hrest))

theorem meets_transcriptElements : (elements : List (Field × List (Field × Value))) →
    ElementsObey (.ofHeaders ofEntry ofWrapper) elements →
      (transcriptElements elements).Meets ofEntry ofWrapper
  | [], _ => by
    rw [transcriptElements]
    exact Transcript.meets_octets
  | (f, fields) :: rest, h => by
    obtain ⟨hf, hfields, hrest⟩ := elementsObey_cons.1 h
    rw [transcriptElements]
    exact (Transcript.meets_wrapper hf).andThen ((meets_transcriptFields fields hfields).andThen
      (Transcript.meets_octets.andThen (meets_transcriptElements rest hrest)))
end

mutual
/-- A value that is no array and holds none has no elements. -/
theorem obeys_of_flat : (v : Value) → v.kind ≠ .array → v.Obeys .flat →
    v.Obeys (.ofHeaders (fun _ => True) fun _ => False)
  | .object fields, _, h => obeys_object.2 (fieldsObey_of_flat fields (obeys_object.1 h))
  | .array _, hkind, _ => absurd rfl hkind
  | .uint8 _, _, _ | .uint16 _, _, _ | .uint32 _, _, _ | .uint64 _, _, _ | .hash128 _, _, _
  | .hash160 _, _, _ | .hash256 _, _, _ | .account _, _, _ | .blob _, _, _ | .amount _, _, _
  | .currency _, _, _ | .issue _, _, _ | .vector256 _, _, _ | .pathSet _, _, _ =>
    obeys_of_isLeaf ⟨nofun, nofun⟩

theorem fieldsObey_of_flat : (fields : List (Field × Value)) → Object.Obeys .flat fields →
    Object.Obeys (.ofHeaders (fun _ => True) fun _ => False) fields
  | [], _ => Object.obeys_nil
  | (_, v) :: rest, h => by
    obtain ⟨hkind, hv, hrest⟩ := Object.obeys_cons.1 h
    exact Object.obeys_cons.2 ⟨trivial, obeys_of_flat v hkind hv, fieldsObey_of_flat rest hrest⟩
end

end Value

/-- What a rule says of fields holds of the headers that are written for an object. -/
theorem Object.meets_transcript {ofEntry ofWrapper : Field → Prop} {fields : Object}
    (h : Object.Obeys (.ofHeaders ofEntry ofWrapper) fields) :
    fields.transcript.Meets ofEntry ofWrapper :=
  Value.meets_transcriptFields fields h

/-! ### Headers that lead back -/

namespace Registry

/-- The field is written, and its header leads back to it. -/
structure Finds (registry : Registry) (f : Field) : Prop where
  /-- The field is written. -/
  serialized : f.serialized = true
  /-- Looking up the header yields the field. -/
  found : registry.fieldByHeader f.header = .ok f

/-- Some field takes arrays, and some field that is not written can wrap an element. -/
def IsPermeable (registry : Registry) : Prop :=
  (∃ a, registry.Takes false a ∧ a.kind = .array) ∧
    ∃ w, registry.Wraps w ∧ w.serialized = false

/-- A header leads back to its field if and only if the field is written. -/
theorem WellFormed.finds_iff {registry : Registry} (h : registry.WellFormed) {f : Field}
    (hf : f ∈ registry.fields) : registry.Finds f ↔ f.serialized = true :=
  ⟨Finds.serialized, fun hs => ⟨hs, h.fieldByHeader_eq_ok_iff.2 ⟨hf, hs, rfl⟩⟩⟩

end Registry

section OfJson

variable {context : Context} {onlySigning : Bool} {j : Json} {fields : Object}

/-- A field whose value is an array takes arrays, because values with names are numbers. -/
theorem Plain.takes_of_fieldOfMember {fuel : Nat} {member : String × Json} {p : Field × Value}
    (h : fieldOfMember context (valueWith context fuel) onlySigning member = .ok (some p))
    (hkind : p.2.kind = .array) : context.registry.Takes onlySigning p.1 ∧ p.1.kind = .array := by
  have hfits := fits_of_fieldOfMember h
  have hfkind : p.1.kind = .array := hfits.kind.symm.trans hkind
  obtain ⟨-, -, -, -, hsigning, hvalue⟩ := fieldOfMember_eq_some_iff.1 h
  refine ⟨⟨hfits.mem, hfits.not_marker, hfits.serialized, hsigning, ?_⟩, hfkind⟩
  rw [valueOfField, hfkind] at hvalue
  split at hvalue
  · next hnone => exact hnone
  · split at hvalue
    · cases hvalue
    · next code hcode =>
      obtain ⟨n, rfl⟩ := exists_int_of_enumCode hcode
      -- a number is no list
      cases fuel with
      | zero => cases hvalue
      | succ fuel =>
        obtain ⟨elements, -, harray⟩ := arrayWith_of_valueWith (withField_eq_ok_iff.1 hvalue)
        cases harray

/-- Nothing around elements is written for an object in a registry without fields for arrays. -/
theorem Object.meets_of_no_array (hnone : ¬∃ a, context.registry.Takes false a ∧ a.kind = .array)
    (h : Object.ofJson context onlySigning j = .ok fields) :
    fields.transcript.Meets (fun _ => True) fun _ => False := by
  have hflat : Object.Obeys .flat fields := by
    refine Plain.obeys_of_objectWith Rule.isLocal_flat (fun _ _ _ p hp hkind => ?_)
      (fun _ _ _ => trivial) h
    obtain ⟨htakes, hfkind⟩ := Plain.takes_of_fieldOfMember hp hkind
    exact hnone ⟨p.1, { htakes with signing := nofun }, hfkind⟩
  exact meets_transcript (Value.fieldsObey_of_flat fields hflat)

/-- The headers of fields in objects are those of written fields, and those around elements belong
to fields that can wrap one. -/
theorem Object.meets_of_ofJson (h : Object.ofJson context onlySigning j = .ok fields) :
    fields.transcript.Meets (fun f => f ∈ context.registry.fields ∧ f.serialized = true)
      context.registry.Wraps := by
  have hheaders : Object.Obeys (.ofHeaders
      (fun f => f ∈ context.registry.fields ∧ f.serialized = true) context.registry.Wraps)
      fields := by
    refine Value.fieldsObey_imp ?_ ?_ fields (fits_of_ofJson h)
    · exact fun f v rest hf => ⟨hf.mem, hf.serialized⟩
    · exact fun f hf => hf
  exact meets_transcript hheaders

end OfJson

/-! ### An array with one element -/

namespace Wrapped

variable (a w : Field)

/-- An array with an empty element, in a field. -/
def object : Object := [(a, .array [(w, [])])]

/-- The plain form of the object. -/
def plain : Json := .obj [(a.name, .arr [.obj [(w.name, .obj [])]])]

variable {a w}

theorem ofJson_plain {context : Context} (hregistry : context.registry.WellFormed)
    (ha : context.registry.Takes false a) (hkind : a.kind = .array)
    (hw : context.registry.Wraps w) :
    Object.ofJson context false (plain a w) = .ok (object a w) :=
  Plain.objectWith_array hregistry ha hkind (.cons (Plain.elementWith_obj hregistry hw rfl) .nil)

/-- The array is short enough for every length, so its object can be written. -/
theorem exists_toBytes (a w : Field) : ∃ bytes, (object a w).toBytes = .ok bytes := by
  have harray : (Value.array [(w, [])]).toBytes =
      .ok (w.header.bytes ++ ([] ++ objectEnd :: [arrayEnd])) :=
    Value.toBytes_array_cons_eq_ok_iff.2
      ⟨[], [arrayEnd], Object.toBytes_nil, Value.toBytes_array_nil, rfl⟩
  have hlength : (w.header.bytes ++ ([] ++ objectEnd :: [arrayEnd])).length ≤
      LengthPrefix.maxLength := by
    have hheader := w.header.length_bytes_le
    simp only [List.nil_append, List.length_append, List.length_cons, List.length_nil]
    unfold LengthPrefix.maxLength
    omega
  obtain ⟨framed, hframed⟩ : ∃ framed, a.frame _ = .ok framed :=
    Field.exists_frame_iff.2 fun _ => hlength
  exact ⟨_, Object.toBytes_cons_eq_ok_iff.2
    ⟨_, framed, [], harray, hframed, Object.toBytes_nil, rfl⟩⟩

theorem headers_object (a w : Field) : (object a w).transcript.headers = [a, w] := by
  obtain ⟨bytes, hbytes⟩ := exists_toBytes a w
  rw [Object.headers_of_toBytes hbytes]
  rfl

end Wrapped

/-! ### A permeable registry -/

/-- A schema with a field for objects that is not written and has the header of another. -/
def ghostSchema : Schema where
  types := [("STObject", 14), ("STArray", 15)]
  fields :=
    [⟨objectEndName, 1, false, true, true, "STObject"⟩,
     ⟨arrayEndName, 1, false, true, true, "STArray"⟩,
     ⟨"Ghost", 10, false, false, true, "STObject"⟩,
     ⟨"Memo", 10, false, true, true, "STObject"⟩,
     ⟨"Memos", 9, false, true, true, "STArray"⟩]
  transactionTypes := []
  transactionResults := []
  ledgerEntryTypes := []

namespace Ghost

/-- The field that is not written. -/
def ghost : Field := ⟨"Ghost", .object, ⟨14, 10⟩, false, false, true⟩

/-- The field that has its header. -/
def memo : Field := ⟨"Memo", .object, ⟨14, 10⟩, false, true, true⟩

/-- The field for arrays. -/
def memos : Field := ⟨"Memos", .array, ⟨15, 9⟩, false, true, true⟩

/-- The registry of the schema. -/
def registry : Registry where
  fields :=
    [⟨objectEndName, .object, ⟨14, 1⟩, false, true, true⟩,
     ⟨arrayEndName, .array, ⟨15, 1⟩, false, true, true⟩, ghost, memo, memos]
  typeCodes := [("STObject", 14), ("STArray", 15)]
  transactionTypes := ⟨[]⟩
  transactionResults := ⟨[]⟩
  ledgerEntryTypes := ⟨[]⟩

theorem accepted : registry.Accepted :=
  ⟨ghostSchema, ⟨List.nodup_nil, List.nodup_nil, List.nodup_nil⟩, rfl⟩

end Ghost

/-! ### All headers -/

namespace Registry

variable {registry : Registry}

/-- In a registry that is not permeable all headers lead back to their fields. -/
theorem WellFormed.finds_of_not_isPermeable {context : Context}
    (hregistry : context.registry.WellFormed) (hnot : ¬context.registry.IsPermeable)
    {onlySigning : Bool} {j : Json} {fields : Object}
    (h : Object.ofJson context onlySigning j = .ok fields) {f : Field}
    (hf : f ∈ fields.transcript.headers) : context.registry.Finds f := by
  obtain hentry | hwrapper := Transcript.mem_headers_iff.1 hf
  · obtain ⟨hmem, hs⟩ := Object.meets_of_ofJson h _ hentry
    exact (hregistry.finds_iff hmem).2 hs
  · have hwraps : context.registry.Wraps f := Object.meets_of_ofJson h _ hwrapper
    refine (hregistry.finds_iff hwraps.mem).2 ?_
    by_contra hs
    have hnone : ¬∃ a, context.registry.Takes false a ∧ a.kind = .array := fun harray =>
      hnot ⟨harray, f, hwraps, Bool.eq_false_iff.2 hs⟩
    exact Object.meets_of_no_array hnone h _ hwrapper

/-- In a permeable registry a header is written that does not lead back to its field. -/
theorem IsPermeable.exists_not_finds {context : Context} (hregistry : context.registry.WellFormed)
    (h : context.registry.IsPermeable) :
    ∃ j fields f, Object.ofJson context false j = .ok fields ∧ f ∈ fields.transcript.headers ∧
      ¬context.registry.Finds f := by
  obtain ⟨⟨a, ha, hkind⟩, w, hw, hs⟩ := h
  have hread := Wrapped.ofJson_plain hregistry ha hkind hw
  have hmem : w ∈ (Wrapped.object a w).transcript.headers := by
    rw [Wrapped.headers_object]
    exact List.mem_cons_of_mem _ List.mem_cons_self
  refine ⟨_, _, w, hread, hmem, fun hfinds => ?_⟩
  rw [hfinds.serialized] at hs
  cases hs

/-- All headers that are written for plain objects lead back to their fields. -/
def FindsHeaders (registry : Registry) (addresses : AddressBook) : Prop :=
  ∀ onlySigning j fields, Object.ofJson ⟨registry, addresses⟩ onlySigning j = .ok fields →
    ∀ f ∈ fields.transcript.headers, registry.Finds f

/-- **Headers of fields lead back to them, those around elements if their fields are written.** In
an accepted registry, for every address book and for signing fields alone as for all fields, an
object that a plain value stands for is written as its transcript says, and if it can be written,
with the headers of all fields in it. The headers of fields in objects, at whatever level, are those
of written fields and lead back to them; a header around an element does if and only if its field is
written. So all headers do, for all plain values, if and only if the registry is not permeable. -/
theorem Accepted.findsHeaders_iff (h : registry.Accepted) (addresses : AddressBook) :
    (∀ onlySigning j fields, Object.ofJson ⟨registry, addresses⟩ onlySigning j = .ok fields →
      (Value.writeFields fields).Records fields.transcript ∧
      (∀ bytes, fields.toBytes = .ok bytes → fields.transcript.headers = fields.fieldsWithin) ∧
      (∀ f, .entry f ∈ fields.transcript.pieces → registry.Finds f) ∧
      ∀ f, .wrapper f ∈ fields.transcript.pieces →
        registry.Wraps f ∧ (registry.Finds f ↔ f.serialized = true)) ∧
    (registry.FindsHeaders addresses ↔ ¬registry.IsPermeable) := by
  have hwell : (Context.mk registry addresses).registry.WellFormed := h.wellFormed
  refine ⟨fun onlySigning j fields hfields => ?_, ?_, ?_⟩
  · have hmeets := Object.meets_of_ofJson hfields
    refine ⟨Value.records_writeFields fields, fun _ => Object.headers_of_toBytes,
      fun f hentry => ?_, fun f hwrapper => ?_⟩
    · obtain ⟨hmem, hs⟩ := hmeets _ hentry
      exact (hwell.finds_iff hmem).2 hs
    · have hwraps : registry.Wraps f := hmeets _ hwrapper
      exact ⟨hwraps, hwell.finds_iff hwraps.mem⟩
  · intro hfinds hpermeable
    obtain ⟨j, fields, f, hfields, hf, hnot⟩ := IsPermeable.exists_not_finds hwell hpermeable
    exact hnot (hfinds false j fields hfields f hf)
  · exact fun hnot _ _ _ hfields _ hf => hwell.finds_of_not_isPermeable hnot hfields hf

/-- All headers of the bundled registry lead back, and so do the two of an empty memo in a registry
that is permeable. -/
theorem findsHeaders_bundled :
    bundled.Accepted ∧ bundled.FindsHeaders .hex ∧ Ghost.registry.Accepted ∧
      Object.ofJson ⟨Ghost.registry, .hex⟩ false (Wrapped.plain Ghost.memos Ghost.memo) =
        .ok (Wrapped.object Ghost.memos Ghost.memo) ∧
      (Wrapped.object Ghost.memos Ghost.memo).transcript.headers = [Ghost.memos, Ghost.memo] ∧
      Ghost.registry.Finds Ghost.memos ∧ Ghost.registry.Finds Ghost.memo := by
  have haccepted := regular_bundled.accepted
  have hnot : ¬bundled.IsPermeable := fun ⟨_, w, hw, hs⟩ => by
    rw [regular_bundled.object_serialized w hw.mem hw.kind] at hs
    cases hs
  have hread : Object.ofJson ⟨Ghost.registry, .hex⟩ false (Wrapped.plain Ghost.memos Ghost.memo) =
      .ok (Wrapped.object Ghost.memos Ghost.memo) := rfl
  obtain ⟨-, -, hentry, hwrapper⟩ :=
    (Accepted.findsHeaders_iff Ghost.accepted .hex).1 false _ _ hread
  have hmemos : Ghost.registry.Finds Ghost.memos := hentry _ List.mem_cons_self
  have hmemo : Ghost.registry.Finds Ghost.memo :=
    (hwrapper _ (List.mem_cons_of_mem _ List.mem_cons_self)).2.2 rfl
  exact ⟨haccepted, (Accepted.findsHeaders_iff haccepted .hex).2.2 hnot, Ghost.accepted, hread,
    Wrapped.headers_object _ _, hmemos, hmemo⟩

/-- An element is written with the header of a field that is not written, and it is read back as
one in another field. -/
theorem not_findsHeaders_ghost :
    Ghost.registry.Accepted ∧
      Object.ofJson ⟨Ghost.registry, .hex⟩ false (Wrapped.plain Ghost.memos Ghost.ghost) =
        .ok (Wrapped.object Ghost.memos Ghost.ghost) ∧
      (Codec.ofRegistry Ghost.registry).encode (Wrapped.plain Ghost.memos Ghost.ghost) false =
        .ok [0xF9, 0xEA, 0xE1, 0xF1] ∧
      (Codec.ofRegistry Ghost.registry).decode [0xF9, 0xEA, 0xE1, 0xF1] =
        .ok (Wrapped.plain Ghost.memos Ghost.memo) ∧
      ¬∀ registry : Registry, registry.Accepted →
        ∀ addresses, registry.FindsHeaders addresses := by
  have hread : Object.ofJson ⟨Ghost.registry, .hex⟩ false
      (Wrapped.plain Ghost.memos Ghost.ghost) = .ok (Wrapped.object Ghost.memos Ghost.ghost) := rfl
  refine ⟨Ghost.accepted, hread, rfl, rfl, fun h => ?_⟩
  have hmem : Ghost.ghost ∈ (Wrapped.object Ghost.memos Ghost.ghost).transcript.headers := by
    rw [Wrapped.headers_object]
    exact List.mem_cons_of_mem _ List.mem_cons_self
  have hghost : Ghost.registry.Finds Ghost.ghost :=
    h _ Ghost.accepted .hex false _ _ hread _ hmem
  cases hghost.serialized

end Registry

end FieldWire
