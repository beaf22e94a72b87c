import FieldWire.Codec.Basic
import FieldWire.Proofs.Plain.Reading
import FieldWire.Proofs.Value.Inductive

/-!
# Single fields read back

The reader of a field takes back what was written for it behind its header, whatever follows
(`Field.ReadsBack`), and that does not need a regular registry: any schema that loads will do, if
the fields of the value are legible (`Value.readsBack_of_legible`). Of a plain value only that is
left to ask which no plain value can bring about, that nested values have ends and that bytes have
lengths. Where the ends are found, the lengths decide (`Value.readsBack_iff_measured`).

Bytes without a length are refused wherever they are read (`Value.readOfField_of_not_isMeasured`),
although they are written without complaint, so a schema that describes such a field loads and is of
no use (`Registry.not_readsBack_loose`). An object behind a length is refused when it is read, for
its end marker is written behind the bytes that the length counts and read with them
(`Value.readOfField_of_prefixed_object`).
-/

namespace FieldWire

/-- What is written for the field behind its header is read as the value, whatever follows. -/
def Field.ReadsBack (registry : Registry) (limit depth : Nat) (f : Field) (v : Value) : Prop :=
  ∀ written, Object.toBytes [(f, v)] = .ok written →
    ∃ bytes, written = f.header.bytes ++ bytes ∧
      (Value.readOfField registry limit f).Reads depth bytes v

/-- What is wrong with bytes, or with hashes in any number, that stand behind no length. -/
def Field.bareFault (f : Field) : ValueFault :=
  if f.kind = .blob then .unprefixedBlob else .unprefixedVector

/-- A field alone takes its header, its framed value and, for an object, the end marker. -/
theorem Object.toBytes_singleton {f : Field} {v : Value} {written : List UInt8} :
    Object.toBytes [(f, v)] = .ok written ↔ ∃ inner framed, v.toBytes = .ok inner ∧
      f.frame inner = .ok framed ∧ written = f.header.bytes ++ (framed ++ f.closing) := by
  rw [toBytes_cons_eq_ok_iff, toBytes_nil]
  simp

namespace Value

variable {registry : Registry} {limit depth : Nat} {f : Field}

/-! ### Legible values -/

/-- The bytes that are left are enough for any value among them. -/
theorem reads_read {kind : Kind} {length : Option Nat} {bytes : List UInt8} {v : Value}
    (h : ∀ fuel, bytes.length ≤ fuel → (readKind registry limit fuel kind length).Reads depth
      bytes v) : (read registry limit kind length).Reads depth bytes v := by
  intro rest position
  have hget : (get : Reader Cursor) ⟨bytes ++ rest, position, depth⟩ =
      .ok ⟨bytes ++ rest, position, depth⟩ ⟨bytes ++ rest, position, depth⟩ := rfl
  have hfuel : bytes.length ≤ (bytes ++ rest).length + 1 := by
    rw [List.length_append]
    omega
  rw [read, Reader.bind_of_ok hget]
  exact h _ hfuel rest position

/-- Legible values read back. -/
theorem readsBack_of_legible (hregistry : registry.WellFormed) {v : Value}
    (hlegible : Object.Obeys (.legible registry) [(f, v)]) (hdepth : v.nesting + depth ≤ limit) :
    f.ReadsBack registry limit depth v := by
  intro written hwritten
  obtain ⟨hf, hv, -⟩ := Object.obeys_cons.1 hlegible
  obtain ⟨inner, framed, hinner, hframed, rfl⟩ := Object.toBytes_singleton.1 hwritten
  refine ⟨framed ++ f.closing, rfl, reads_readOfFieldWith_closing hframed
    (fun hkind => (hf.2.2.object hkind).1) (reads_read fun fuel hfuel => ?_)⟩
  rw [List.length_append] at hfuel
  exact reads_readKind hregistry v hf hv hdepth hinner hfuel

/-! ### Bytes without a length -/

/-- Bytes without a length are refused wherever they are read, with a fault that says so. -/
theorem readOfField_of_not_isMeasured (h : ¬f.IsMeasured) (c : Cursor) :
    readOfField registry limit f c = .error (.ofKind f.kind f.bareFault) c := by
  obtain ⟨hkind, hlength⟩ := Classical.not_imp.1 h
  rw [readOfField, readOfFieldWith, if_neg hlength, Field.bareFault]
  rcases hkind with hkind | hkind <;> rw [hkind] <;> rfl

/-- A value that is written and read back has its bytes behind their lengths, at every level. -/
theorem measured_of_readsBack {v : Value} (hdepth : depth ≤ limit) {written : List UInt8}
    (hwritten : Object.toBytes [(f, v)] = .ok written) (h : f.ReadsBack registry limit depth v) :
    Object.Obeys .measured [(f, v)] := by
  obtain ⟨bytes, -, hreads⟩ := h written hwritten
  obtain ⟨-, -, -, -, hmeasured⟩ := yields_measured hdepth f _ _ _ rfl (hreads [] 0)
  exact hmeasured

/-! ### Objects behind a length -/

/-- An object behind a length is refused: it is read up to its end marker, which is one byte more
than the length counts. -/
theorem readOfField_of_prefixed_object (hregistry : registry.WellFormed)
    (hmarker : registry.WritesMarker objectEndName) (hkind : f.kind = .object)
    (hlength : f.variableLength = true) {fields : Object}
    (hlegible : Object.Obeys (.legible registry) fields)
    (hdepth : nestingFields fields + (depth + 1) ≤ limit) {inner framed : List UInt8}
    (hinner : fields.toBytes = .ok inner) (hframed : f.frame inner = .ok framed)
    (rest : List UInt8) (position : Nat) :
    ∃ c, readOfField registry limit f ⟨framed ++ f.closing ++ rest, position, depth⟩ =
      .error (.typeMismatch f.name (.kind .object)
        (.lengthMismatch (inner.length + 1) inner.length)) c := by
  rw [f.frame_of_variableLength hlength, Writer.prefixed, map_eq_ok_iff] at hframed
  obtain ⟨head, hhead, rfl⟩ := hframed
  have hlengthRead : LengthPrefix.read.Reads depth head inner.length :=
    LengthPrefix.reads_read hhead
  have hvalue : (read registry limit .object (some inner.length)).Reads depth
      (inner ++ [objectEnd]) (.object fields) := by
    refine reads_read fun fuel hfuel => ?_
    rw [List.length_append, List.length_singleton] at hfuel
    exact (readsFields hregistry fields hlegible hdepth hinner hfuel).reads_readKind hregistry
      hmarker (by omega) _
  have hget : ∀ c : Cursor, (get : Reader Cursor) c = .ok c c := fun _ => rfl
  have hleft : inner.length ≤ (inner ++ [objectEnd] ++ rest).length := by
    rw [List.length_append, List.length_append]
    omega
  rw [closing_of_object hkind, List.append_assoc head, List.append_assoc head, readOfField,
    readOfFieldWith, if_pos hlength, hkind, Reader.bind_of_ok (hlengthRead _ _),
    Reader.bind_of_ok (Reader.need_of_le hleft), Reader.bind_of_ok (hget _),
    Reader.bind_of_ok (hvalue _ _), Reader.bind_of_ok (hget _)]
  simp only [List.length_append, List.length_singleton, Nat.add_sub_cancel_left]
  rw [if_neg (by omega)]
  exact ⟨_, rfl⟩

end Value

/-! ### Plain values -/

/-- **What a plain value becomes in a field is read back** exactly if its bytes stand behind their
lengths, where the ends of nested values are found. Where the bytes of the field itself have no
length, it is not read at all. -/
theorem Value.readsBack_iff_measured {context : Context} {limit depth : Nat}
    (hregistry : context.registry.Accepted) {f : Field} (hf : f ∈ context.registry.fields)
    (hserialized : f.serialized = true) (hmarker : f.isMarker = false) {j : Json} {v : Value}
    (hv : Value.ofJson context f.kind j = .ok v) (hdepth : v.nesting + depth ≤ limit) :
    (∀ written, Object.Obeys (.closed context.registry) [(f, v)] →
        Object.toBytes [(f, v)] = .ok written →
          (f.ReadsBack context.registry limit depth v ↔ Object.Obeys .measured [(f, v)])) ∧
      (¬f.IsMeasured → ∀ c, Value.readOfField context.registry limit f c =
        .error (.ofKind f.kind f.bareFault) c) := by
  refine ⟨fun written hclosed hwritten => ⟨fun h => ?_, fun hmeasured => ?_⟩,
    readOfField_of_not_isMeasured⟩
  · exact measured_of_readsBack (by omega) hwritten h
  · have hfits : Object.Obeys (.fits context.registry) [(f, v)] := by
      obtain ⟨hkind, hproper⟩ := Plain.kind_of_valueWith hv
      refine Object.obeys_cons.2 ⟨⟨hf, hserialized, hmarker, hkind, hproper⟩, ?_, Object.obeys_nil⟩
      exact Plain.obeys_of_valueWith (Rule.isLocal_fits _)
        (fun _ _ _ _ => Plain.fits_of_fieldOfMember) (fun _ hmem helement => ⟨hmem, helement⟩) hv
    exact readsBack_of_legible hregistry.wellFormed
      (fieldsObey_and _ hfits (fieldsObey_and _ hmeasured hclosed)) hdepth

/-! ### An unusual schema -/

/-- A schema in which bytes have no length, while numbers and arrays have one. -/
def looseSchema : Schema where
  types := [("UInt32", 2), ("Blob", 7), ("STObject", 14), ("STArray", 15)]
  fields :=
    [⟨objectEndName, 1, false, true, true, "STObject"⟩,
     ⟨arrayEndName, 1, false, true, true, "STArray"⟩,
     ⟨"Sequence", 4, true, true, true, "UInt32"⟩,
     ⟨"Domain", 7, false, true, true, "Blob"⟩,
     ⟨"Memo", 10, false, true, true, "STObject"⟩,
     ⟨"Memos", 9, true, true, true, "STArray"⟩]
  transactionTypes := []
  transactionResults := []
  ledgerEntryTypes := []

namespace Loose

/-- A number behind its length. -/
def sequence : Field := ⟨"Sequence", .uint32, ⟨2, 4⟩, true, true, true⟩

/-- Bytes without a length. -/
def domain : Field := ⟨"Domain", .blob, ⟨7, 7⟩, false, true, true⟩

/-- The field around an element. -/
def memo : Field := ⟨"Memo", .object, ⟨14, 10⟩, false, true, true⟩

/-- An array behind its length. -/
def memos : Field := ⟨"Memos", .array, ⟨15, 9⟩, true, true, true⟩

/-- The registry of the schema. -/
def registry : Registry where
  fields :=
    [⟨objectEndName, .object, ⟨14, 1⟩, false, true, true⟩,
     ⟨arrayEndName, .array, ⟨15, 1⟩, false, true, true⟩, sequence, domain, memo, memos]
  typeCodes := [("UInt32", 2), ("Blob", 7), ("STObject", 14), ("STArray", 15)]
  transactionTypes := ⟨[]⟩
  transactionResults := ⟨[]⟩
  ledgerEntryTypes := ⟨[]⟩

theorem accepted : registry.Accepted :=
  ⟨looseSchema, ⟨List.nodup_nil, List.nodup_nil, List.nodup_nil⟩, rfl⟩

/-- What plain values are read with. -/
def context : Context := ⟨registry, .hex⟩

/-- A list of one element. -/
def plain : Json := .arr [.obj [("Memo", .obj [("Sequence", .nat 7)])]]

/-- What the list stands for. -/
def value : Value := .array [(memo, [(sequence, .uint32 7)])]

theorem writesMarker {name : String} : registry.WritesMarker name := by
  have hall : ∀ f ∈ registry.fields, f.serialized = true := by decide
  exact fun f hf _ => hall f hf

/-- The list is legible. -/
theorem obeys_value : Object.Obeys .measured [(memos, value)] ∧
    Object.Obeys (.closed registry) [(memos, value)] := by
  constructor
  · exact ⟨nofun, ⟨trivial, ⟨nofun, trivial, trivial⟩, trivial⟩, trivial⟩
  · exact ⟨⟨nofun, fun _ => writesMarker⟩, ⟨⟨rfl, by decide, writesMarker⟩,
      ⟨⟨nofun, nofun⟩, trivial, trivial⟩, trivial⟩, trivial⟩

theorem ofJson_digits : Value.ofJson context .blob (.str "AB") = .ok (.blob [0xAB]) := rfl

theorem not_isMeasured_domain : ¬domain.IsMeasured := by
  unfold Field.IsMeasured
  decide

end Loose

/-- The list is read back, while the reader refuses bytes without a length. -/
theorem Value.readsBack_loose :
    Value.ofJson Loose.context .array Loose.plain = .ok Loose.value ∧
      Object.toBytes [(Loose.memos, Loose.value)] =
        .ok [0xF9, 9, 0xEA, 0x24, 4, 0, 0, 0, 7, 0xE1, 0xF1] ∧
      Loose.memos.ReadsBack Loose.registry defaultMaxDepth 0 Loose.value ∧
      ∀ c, Value.readOfField Loose.registry defaultMaxDepth Loose.domain c =
        .error (.ofKind .blob .unprefixedBlob) c := by
  have hmemos : Loose.memos ∈ Loose.registry.fields := by decide
  have hdomain : Loose.domain ∈ Loose.registry.fields := by decide
  have hvalue : Value.ofJson Loose.context .array Loose.plain = .ok Loose.value := rfl
  have hdepth : Loose.value.nesting + 0 ≤ defaultMaxDepth := by decide
  have hbytes : Object.toBytes [(Loose.memos, Loose.value)] =
      .ok [0xF9, 9, 0xEA, 0x24, 4, 0, 0, 0, 7, 0xE1, 0xF1] := eq_ok_of_toOption (by decide +kernel)
  refine ⟨hvalue, hbytes, ?_, ?_⟩
  · obtain ⟨hlist, -⟩ := @readsBack_iff_measured Loose.context _ _ Loose.accepted _ hmemos rfl rfl
      _ _ hvalue hdepth
    exact (hlist _ Loose.obeys_value.2 hbytes).2 Loose.obeys_value.1
  · exact (@readsBack_iff_measured Loose.context defaultMaxDepth 0 Loose.accepted _ hdomain rfl rfl
      _ _ Loose.ofJson_digits (Nat.zero_le _)).2 Loose.not_isMeasured_domain

/-- Whatever a plain value becomes in a field that is written is read back. -/
def Context.ReadsBack (context : Context) (limit : Nat) : Prop :=
  ∀ f ∈ context.registry.fields, f.serialized = true → f.isMarker = false → ∀ j v,
    Value.ofJson context f.kind j = .ok v → v.nesting ≤ limit →
      f.ReadsBack context.registry limit 0 v

/-- A schema with bytes that have no length loads, and not all that is written with it is read
back. -/
theorem Registry.not_readsBack_loose :
    Loose.registry.Accepted ∧ ¬Loose.context.ReadsBack defaultMaxDepth := by
  refine ⟨Loose.accepted, fun h => ?_⟩
  have hwritten : Object.toBytes [(Loose.domain, .blob [0xAB])] = .ok [0x77, 0xAB] :=
    eq_ok_of_toOption (by decide +kernel)
  obtain ⟨bytes, -, hreads⟩ :=
    h Loose.domain (by decide) rfl rfl _ _ Loose.ofJson_digits (Nat.zero_le _) _ hwritten
  -- the reader would have to take the byte back and refuse it at once
  cases (Value.readOfField_of_not_isMeasured Loose.not_isMeasured_domain _).symm.trans
    (hreads [] 0)

end FieldWire
