import FieldWire.Proofs.Codec.KeyOrder
import FieldWire.Proofs.Codec.RoundTrip

/-!
# Signed bytes are cut out of all bytes

The bytes of an object are those of its fields in a row (`Object.toBytes_eq_ok_iff`). The part of a
field, its *chunk* (`Field.chunk`), is told by the field and its value alone, so leaving out fields
leaves out their chunks (`Object.chunks_filter`).

A plain object has the same signing fields whether or not the others are wanted
(`Object.ofJson_signing`): a member that is passed over for a signature is passed over before its
value is looked at, sorting does not care, and nested values are read without regard to signatures.
So the bytes that a signature covers are the chunks of the signing fields of all bytes, unchanged
and in their order (`Codec.encode_signing`).
-/

namespace FieldWire

/-! ### Chunks -/

/-- The bytes that a field puts into an object: its header, its value, behind the length where the
field has one, and the end marker if the value is an object. -/
def Field.chunk (f : Field) (v : Value) : Except Error (List UInt8) := do
  let inner ← v.toBytes
  let framed ← f.frame inner
  return f.header.bytes ++ (framed ++ f.closing)

namespace Object

/-- The fields of an object with their chunks. -/
def chunks (fields : Object) : Except Error (List (Field × List UInt8)) :=
  fields.mapM fun p => (p.1.chunk p.2).map (p.1, ·)

variable {fields : Object}

/-- The bytes of an object are those of its first field and those of the others. -/
theorem toBytes_cons (f : Field) (v : Value) (rest : Object) {bytes : List UInt8} :
    toBytes ((f, v) :: rest) = .ok bytes ↔ ∃ chunk tail, f.chunk v = .ok chunk ∧
      toBytes rest = .ok tail ∧ bytes = chunk ++ tail := by
  simp only [toBytes_cons_eq_ok_iff, Field.chunk, bind_eq_ok_iff]
  constructor
  · rintro ⟨inner, framed, tail, hinner, hframed, htail, rfl⟩
    exact ⟨_, tail, ⟨inner, hinner, framed, hframed, rfl⟩, htail, by simp⟩
  · rintro ⟨_, tail, ⟨inner, hinner, framed, hframed, ⟨⟩⟩, htail, rfl⟩
    exact ⟨inner, framed, tail, hinner, hframed, htail, by simp⟩

/-- The bytes of an object are its chunks in a row. -/
theorem toBytes_eq_ok_iff {bytes : List UInt8} : fields.toBytes = .ok bytes ↔
    ∃ chunks, fields.chunks = .ok chunks ∧ bytes = chunks.flatMap Prod.snd := by
  unfold chunks
  simp only [mapM_eq_ok_iff]
  induction fields generalizing bytes with
  | nil => simp [toBytes_nil, eq_comm]
  | cons p rest ih =>
    obtain ⟨f, v⟩ := p
    rw [toBytes_cons]
    simp only [ih, List.forall₂_cons_left_iff, map_eq_ok_iff]
    constructor
    · rintro ⟨chunk, _, hchunk, ⟨chunks, hchunks, rfl⟩, rfl⟩
      exact ⟨_, ⟨_, chunks, ⟨chunk, hchunk, rfl⟩, hchunks, rfl⟩, rfl⟩
    · rintro ⟨_, ⟨_, chunks, ⟨chunk, hchunk, rfl⟩, hchunks, rfl⟩, rfl⟩
      exact ⟨chunk, _, hchunk, ⟨chunks, hchunks, rfl⟩, rfl⟩

/-- The fields that are left have the chunks that are left. -/
theorem chunks_filter (keep : Field → Bool) {chunks : List (Field × List UInt8)}
    (h : fields.chunks = .ok chunks) :
    Object.chunks (fields.filter fun p => keep p.1) = .ok (chunks.filter fun c => keep c.1) := by
  refine mapM_eq_ok_iff.2 (List.rel_filter ?_ (mapM_eq_ok_iff.1 h))
  intro p c hpc
  obtain ⟨_, -, rfl⟩ := map_eq_ok_iff.1 hpc
  exact Iff.rfl

end Object

/-! ### The signing fields -/

namespace Plain

variable {context : Context} {convert : Kind → Json → Except Error Value}

/-- A member that is read with all others is passed over or read the same way for a signature. -/
theorem fieldOfMember_signing {member : String × Json} {found : Option (Field × Value)}
    (h : fieldOfMember context convert false member = .ok found) :
    fieldOfMember context convert true member = .ok (found.filter fun p => p.1.signing) := by
  cases found with
  | none =>
    refine fieldOfMember_eq_none_iff.2 ((fieldOfMember_eq_none_iff.1 h).imp_right ?_)
    rintro ⟨f, hfield, hmarker, hunwritten | ⟨⟨⟩, -⟩⟩
    exact ⟨f, hfield, hmarker, .inl hunwritten⟩
  | some p =>
    obtain ⟨hnull, hfield, hmarker, hwritten, -, hvalue⟩ := fieldOfMember_eq_some_iff.1 h
    cases hsigning : p.1.signing with
    | true =>
      rw [Option.filter, if_pos hsigning]
      exact fieldOfMember_eq_some_iff.2
        ⟨hnull, hfield, hmarker, hwritten, fun _ => hsigning, hvalue⟩
    | false =>
      rw [Option.filter, if_neg (by rw [hsigning]; exact Bool.false_ne_true)]
      exact fieldOfMember_eq_none_iff.2 (.inr ⟨p.1, hfield, hmarker, .inr ⟨rfl, hsigning⟩⟩)

end Plain

/-- The signing fields of a plain object are the same whether or not the others are wanted. -/
theorem Object.ofJson_signing {context : Context} {j : Json} {fields : Object}
    (h : ofJson context false j = .ok fields) :
    ofJson context true j = .ok (fields.filter fun p => p.1.signing) := by
  obtain ⟨given, members, collected, rfl, hexpand, hcollected, rfl⟩ :=
    Plain.objectWith_eq_ok_iff.1 h
  refine Plain.objectWith_eq_ok_iff.2 ⟨given, members, _, rfl, hexpand,
    Plain.collect_filter (fun member _ _ => Plain.fieldOfMember_signing) hcollected, ?_⟩
  exact sorted_filter _ collected

namespace Codec

variable {codec : Codec}

/-- **Signed bytes are cut out of all bytes.** If all of a plain object can be encoded, the bytes
are the chunks of its fields. Its signing fields can then be encoded as well, their bytes are the
chunks of the signing fields, and a signature covers these bytes behind the lead of signatures. -/
theorem encode_signing {j : Json} {bytes : List UInt8} (h : codec.encode j false = .ok bytes) :
    ∃ fields chunks, Object.ofJson codec.context false j = .ok fields ∧
      fields.chunks = .ok chunks ∧ bytes = chunks.flatMap Prod.snd ∧
      codec.encode j true = .ok ((chunks.filter fun c => c.1.signing).flatMap Prod.snd) ∧
      codec.signingData j =
        .ok (signingLead ++ (chunks.filter fun c => c.1.signing).flatMap Prod.snd) := by
  obtain ⟨fields, hfields, hbytes⟩ := encode_eq_ok_iff.1 h
  obtain ⟨chunks, hchunks, rfl⟩ := Object.toBytes_eq_ok_iff.1 hbytes
  have hsigning : codec.encode j true =
      .ok ((chunks.filter fun c => c.1.signing).flatMap Prod.snd) :=
    encode_eq_ok_iff.2 ⟨_, Object.ofJson_signing hfields,
      Object.toBytes_eq_ok_iff.2 ⟨_, Object.chunks_filter Field.signing hchunks, rfl⟩⟩
  refine ⟨fields, chunks, hfields, hchunks, rfl, hsigning, ?_⟩
  rw [signingData_eq_map, hsigning]
  rfl

/-- Of a transfer the signature is cut out, between the tag and the account; the signature inside
the list is signed. -/
theorem encode_signing_transfer :
    Transfer.codec.encode Transfer.plain false =
        .ok ([0x23, 0, 0, 0, 7] ++ [0x74, 1, 0xAB] ++ ([0x81, 20] ++ List.replicate 20 0) ++
          [0xF9, 0xEA, 0x74, 1, 0xEF, 0xE1, 0xF1]) ∧
      ∃ fields chunks, Object.ofJson Transfer.codec.context false Transfer.plain = .ok fields ∧
        fields.chunks = .ok chunks ∧
        Transfer.codec.encode Transfer.plain true =
          .ok ((chunks.filter fun c => c.1.signing).flatMap Prod.snd) := by
  have hencode : Transfer.codec.encode Transfer.plain false =
      .ok ([0x23, 0, 0, 0, 7] ++ [0x74, 1, 0xAB] ++ ([0x81, 20] ++ List.replicate 20 0) ++
        [0xF9, 0xEA, 0x74, 1, 0xEF, 0xE1, 0xF1]) :=
    eq_ok_of_toOption (by decide +kernel)
  obtain ⟨fields, chunks, hfields, hchunks, -, hsigning, -⟩ := encode_signing hencode
  exact ⟨hencode, fields, chunks, hfields, hchunks, hsigning⟩

end Codec

end FieldWire
