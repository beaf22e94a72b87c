import FieldWire.Proofs.Wire.Transcript

/-!
# Writing behind what the buffer holds

The bytes of a value are what its writer leaves in a buffer of its own. Other callers hand it a
buffer that is not empty: an object behind a signing prefix, a field behind the fields before it, a
value behind the header of its field. `Writer.Extends` tells all of this at once. Whatever the
buffer holds stays in front of a *lead* that is written in any case, and behind the lead the writer
ends in the same way on all buffers: with the same bytes, or with the same error and the same octets
before it.

A writer with a transcript has no lead (`Writer.Records.extends`), and to write something first is
to lengthen the lead (`Writer.Extends.behind`). Values and objects have transcripts, and the header
of a field is written before its value; so `Value.extends_write_and_writeInField` covers the values
of all kinds, at any depth. How much of a value is left by a failure depends on its field: nothing if
the value stands behind its length, since it is then written apart
(`Value.writeInField_of_toBytes_error`).
-/

namespace FieldWire

namespace Writer

variable {writer : Writer Unit} {t : Transcript}

/-- On every buffer the writer keeps what is there, appends the lead whatever happens, and then ends
with the result. -/
structure Extends (writer : Writer Unit) (lead : List UInt8) (result : Except Error (List UInt8)) :
    Prop where
  /-- A success appends the bytes of the result. -/
  of_ok : ∀ bytes, result = .ok bytes →
    ∀ buffer, writer buffer = .ok () (buffer ++ (lead ++ bytes))
  /-- A failure is the error of the result, and what it leaves is the same on every buffer. -/
  of_error : ∀ e, result = .error e →
    ∃ left, ∀ buffer, writer buffer = .error e (buffer ++ (lead ++ left))

/-- Appending never fails, and what comes behind it finds the longer buffer. -/
theorem append_bind_apply (lead : List UInt8) (writer : Writer Unit) (buffer : Array UInt8) :
    (append lead >>= fun _ => writer) buffer = writer (buffer ++ lead) :=
  bind_of_ok rfl

/-- What is written before a writer is written whatever happens later. -/
theorem Extends.behind {more : List UInt8} {result : Except Error (List UInt8)}
    (h : writer.Extends more result) (lead : List UInt8) :
    (append lead >>= fun _ => writer).Extends (lead ++ more) result where
  of_ok bytes hresult buffer := by
    rw [append_bind_apply, h.of_ok bytes hresult, append_append, List.append_assoc]
  of_error e hresult := by
    obtain ⟨left, hleft⟩ := h.of_error e hresult
    refine ⟨left, fun buffer => ?_⟩
    rw [append_bind_apply, hleft, append_append, List.append_assoc]

/-- A writer with a transcript ends on every buffer as it does on an empty one. -/
theorem Records.extends (h : writer.Records t) : writer.Extends [] writer.run := by
  rw [h.run]
  cases hfailure : t.failure with
  | none =>
    refine ⟨fun bytes hbytes buffer => ?_, fun e he => ?_⟩
    · cases hbytes
      rw [h buffer, Transcript.outcome, hfailure, List.nil_append]
    · cases he
  | some e =>
    refine ⟨fun bytes hbytes => ?_, fun f hf => ⟨t.bytes, fun buffer => ?_⟩⟩
    · cases hbytes
    · cases hf
      rw [h buffer, Transcript.outcome, hfailure, List.nil_append]

/-- The header of a field is written in any case, and its value behind it. -/
theorem Records.extends_fieldWith (h : writer.Records t) (f : Field) :
    (Writer.fieldWith f writer).Extends f.header.bytes (writer.run.bind f.frame) := by
  have hframed := (h.framed f).extends.behind f.header.bytes
  rw [run_framed, List.append_nil] at hframed
  exact hframed

end Writer

/-- Framing the bytes of a value, step by step. -/
theorem Field.bind_frame (f : Field) (result : Except Error (List UInt8)) :
    result.bind f.frame = do
      let inner ← result
      if f.variableLength then return (← LengthPrefix.bytes inner.length) ++ inner
      else return inner := by
  cases result with
  | error e => rfl
  | ok inner =>
    cases hlength : f.variableLength with
    | false => rw [f.frame_of_fixedLength hlength]; rfl
    | true =>
      rw [f.frame_of_variableLength hlength]
      change Writer.prefixed inner = (do return (← LengthPrefix.bytes inner.length) ++ inner)
      rw [Writer.prefixed]
      cases LengthPrefix.bytes inner.length <;> rfl

namespace Value

/-- **Writing only appends, and what it appends does not depend on the buffer.** On every buffer, a
value and an object keep what is there and append their bytes, or they fail with the error that they
have no bytes for; and so does a field with its value, except that its header is appended even if
the value fails. Behind the header of a field with a length stand the length of the value's bytes
and then those bytes. -/
theorem extends_write_and_writeInField (v : Value) (fields : Object) (f : Field) :
    v.write.Extends [] v.toBytes ∧ (writeFields fields).Extends [] fields.toBytes ∧
      (v.writeInField f).Extends f.header.bytes (do
        let inner ← v.toBytes
        if f.variableLength then return (← LengthPrefix.bytes inner.length) ++ inner
        else return inner) := by
  rw [← f.bind_frame]
  exact ⟨(records_write v).extends, (records_writeFields fields).extends,
    (records_write v).extends_fieldWith f⟩

/-- If the value of a field with a length fails, then the header is all that is left of the field. -/
theorem writeInField_of_toBytes_error {v : Value} {f : Field} {e : Error}
    (hlength : f.variableLength = true) (h : v.toBytes = .error e) (buffer : Array UInt8) :
    v.writeInField f buffer = .error e (buffer ++ f.header.bytes) := by
  rw [writeInField, Writer.fieldWith, if_pos hlength, Writer.append_bind_apply,
    Writer.withLength_eq_appendOf, ← toBytes, h]
  rfl

end Value

end FieldWire
