import FieldWire.Proofs.Wire.Writing

/-!
# What is written, piece by piece

Bytes do not tell which of them are headers of fields. A *transcript* does: it lists the pieces that
are written, headers apart from other octets and those of fields in objects apart from those around
elements, and it tells how the writing ends. Every value, object and array has one
(`Value.transcript`), which follows the writer step by step: on any buffer the writer appends the
bytes of the pieces and nothing else, and it fails if the transcript says so, with the same error
(`Value.records_write`). A value behind its length is written apart first, so none of its pieces are
written if it fails there. If nothing fails, the headers are those of all fields in the object, at
every level and in order (`Object.headers_of_toBytes`).
-/

namespace FieldWire

/-- A part of what is written. -/
inductive Piece where
  /-- The header of a field of an object. -/
  | entry (f : Field)
  /-- The header of a field around an element. -/
  | wrapper (f : Field)
  /-- Other octets. -/
  | octets (bytes : List UInt8)

/-- The bytes of a piece. -/
def Piece.bytes : Piece → List UInt8
  | entry f => f.header.bytes
  | wrapper f => f.header.bytes
  | octets bytes => bytes

/-- The pieces that are written, and the error if writing fails behind them. -/
structure Transcript where
  /-- The pieces in order. -/
  pieces : List Piece
  /-- The error that ends them. -/
  failure : Option Error

namespace Transcript

/-- The bytes of all pieces. -/
def bytes (t : Transcript) : List UInt8 := t.pieces.flatMap Piece.bytes

/-- A single piece. -/
def ofPiece (piece : Piece) : Transcript := ⟨[piece], none⟩

/-- The octets of something that may have none. -/
def ofResult : Except Error (List UInt8) → Transcript
  | .ok bytes => ofPiece (.octets bytes)
  | .error e => ⟨[], some e⟩

/-- What is written behind something else, if that does not fail. -/
def andThen (t u : Transcript) : Transcript :=
  match t.failure with
  | none => ⟨t.pieces ++ u.pieces, u.failure⟩
  | some _ => t

/-- What is written behind its length. -/
def behindLength (t : Transcript) : Transcript :=
  match t.failure with
  | some e => ⟨[], some e⟩
  | none => (ofResult (LengthPrefix.bytes t.bytes.length)).andThen t

/-- What is written for the value of a field, behind its length where the field has one. -/
def inField (f : Field) (t : Transcript) : Transcript :=
  if f.variableLength then t.behindLength else t

/-- The end of writing to a buffer. -/
def outcome (t : Transcript) (buffer : Array UInt8) : EStateM.Result Error (Array UInt8) Unit :=
  match t.failure with
  | none => .ok () (buffer ++ t.bytes)
  | some e => .error e (buffer ++ t.bytes)

end Transcript

/-! ### Transcripts of writers -/

namespace Writer

/-- The writer does to every buffer what the transcript says. -/
def Records (writer : Writer Unit) (t : Transcript) : Prop :=
  ∀ buffer, writer buffer = t.outcome buffer

theorem records_append (piece : Piece) : (append piece.bytes).Records (.ofPiece piece) := by
  intro buffer
  simp [append, Transcript.outcome, Transcript.ofPiece, Transcript.bytes]

theorem records_pure : (pure () : Writer Unit).Records ⟨[], none⟩ := by
  intro buffer
  change EStateM.Result.ok () buffer = _
  simp [Transcript.outcome, Transcript.bytes]

theorem records_appendOf (result : Except Error (List UInt8)) :
    (appendOf result).Records (.ofResult result) := by
  cases result with
  | ok bytes => exact records_append (.octets bytes)
  | error e =>
    intro buffer
    simp [appendOf, Transcript.ofResult, Transcript.outcome, Transcript.bytes]

theorem Records.bind {first second : Writer Unit} {t u : Transcript} (hfirst : first.Records t)
    (hsecond : second.Records u) : (first >>= fun _ => second).Records (t.andThen u) := by
  intro buffer
  have hstart := hfirst buffer
  unfold Transcript.outcome at hstart
  unfold Transcript.andThen
  split at hstart
  · rw [bind_of_ok hstart, hsecond]
    simp only [Transcript.outcome, Transcript.bytes, List.flatMap_append, append_append]
  · next e hsome =>
    rw [bind_of_error hstart]
    simp only [Transcript.outcome, hsome]

/-- The bytes that a writer appends are those of its pieces. -/
theorem Records.run {writer : Writer Unit} {t : Transcript} (h : writer.Records t) :
    writer.run = match t.failure with
      | none => .ok t.bytes
      | some e => .error e := by
  rw [Writer.run, h #[], Transcript.outcome]
  cases t.failure with
  | none => simp
  | some e => rfl

/-- What is written apart reaches the buffer in one go, behind its length. -/
theorem Records.withLength {writer : Writer Unit} {t : Transcript} (h : writer.Records t) :
    (withLength writer).Records t.behindLength := by
  intro buffer
  rw [withLength_eq_appendOf, records_appendOf, h.run, Transcript.behindLength]
  cases hfailure : t.failure with
  | some e => rfl
  | none =>
    dsimp only [Except.bind, prefixed]
    cases LengthPrefix.bytes t.bytes.length with
    | error e => rfl
    | ok head =>
      simp [Transcript.outcome, Transcript.ofResult, Transcript.ofPiece, Transcript.andThen,
        Transcript.bytes, Piece.bytes, Except.map, hfailure]

/-- A value stands behind its length only in fields that have one. -/
theorem Records.framed {value : Writer Unit} {t : Transcript} (f : Field) (h : value.Records t) :
    (if f.variableLength then Writer.withLength value else value).Records (t.inField f) := by
  unfold Transcript.inField
  split
  · exact h.withLength
  · exact h

/-- A field's header is a piece of its own. -/
theorem Records.fieldWith {value : Writer Unit} {t : Transcript} (f : Field)
    (h : value.Records t) :
    (fieldWith f value).Records ((Transcript.ofPiece (.entry f)).andThen (t.inField f)) :=
  (records_append (.entry f)).bind (h.framed f)

end Writer

/-! ### Transcripts of values -/

namespace Value

mutual
/-- What is written for a value. -/
def transcript : Value → Transcript
  | .object fields => transcriptFields fields
  | .array elements => transcriptElements elements
  | v => .ofResult v.toBytes

/-- What is written for fields with their values. -/
def transcriptFields : List (Field × Value) → Transcript
  | [] => ⟨[], none⟩
  | (f, v) :: rest =>
    ((Transcript.ofPiece (.entry f)).andThen ((transcript v).inField f)).andThen
      ((Transcript.ofPiece (.octets f.closing)).andThen (transcriptFields rest))

/-- What is written for elements, with the end of their array. -/
def transcriptElements : List (Field × List (Field × Value)) → Transcript
  | [] => .ofPiece (.octets [arrayEnd])
  | (f, fields) :: rest =>
    (Transcript.ofPiece (.wrapper f)).andThen ((transcriptFields fields).andThen
      ((Transcript.ofPiece (.octets [objectEnd])).andThen (transcriptElements rest)))
end

mutual
/-- Values are written as their transcripts say. -/
theorem records_write : (v : Value) → v.write.Records v.transcript
  | .uint8 _ | .uint16 _ | .uint32 _ | .uint64 _ | .hash128 _ | .hash160 _ | .hash256 _
  | .account _ | .blob _ | .amount _ | .currency _ | .issue _ | .vector256 _ => by
    simp only [transcript, toBytes, write, Writer.run_append]
    exact Writer.records_append (.octets _)
  | .pathSet paths => by
    simp only [transcript, toBytes, write, Writer.run_appendOf]
    exact Writer.records_appendOf _
  | .object fields => by
    rw [transcript, write]
    exact records_writeFields fields
  | .array elements => by
    rw [transcript, write]
    exact records_writeElements elements

/-- Objects are written as their transcripts say. -/
theorem records_writeFields :
    (fields : List (Field × Value)) → (writeFields fields).Records (transcriptFields fields)
  | [] => by
    rw [transcriptFields, writeFields]
    exact Writer.records_pure
  | (f, v) :: rest => by
    rw [transcriptFields, writeFields_cons]
    exact ((records_write v).fieldWith f).bind
      ((Writer.records_append (.octets f.closing)).bind (records_writeFields rest))

/-- Arrays are written as their transcripts say. -/
theorem records_writeElements : (elements : List (Field × List (Field × Value))) →
    (writeElements elements).Records (transcriptElements elements)
  | [] => by
    rw [transcriptElements, writeElements]
    exact Writer.records_append (.octets [arrayEnd])
  | (f, fields) :: rest => by
    rw [transcriptElements, writeElements_cons]
    exact (Writer.records_append (.wrapper f)).bind ((records_writeFields fields).bind
      ((Writer.records_append (.octets [objectEnd])).bind (records_writeElements rest)))
end

end Value

/-- What is written for an object. -/
def Object.transcript (fields : Object) : Transcript := Value.transcriptFields fields

/-! ### Headers -/

/-- The field whose header the piece is. -/
def Piece.field? : Piece → Option Field
  | entry f | wrapper f => some f
  | octets _ => none

namespace Transcript

variable {t u : Transcript}

/-- The fields whose headers are written. -/
def headers (t : Transcript) : List Field := t.pieces.filterMap Piece.field?

theorem mem_headers_iff {t : Transcript} {f : Field} :
    f ∈ t.headers ↔ .entry f ∈ t.pieces ∨ .wrapper f ∈ t.pieces := by
  rw [headers, List.mem_filterMap]
  constructor
  · rintro ⟨piece, hmem, hfield⟩
    cases piece with
    | entry g => cases hfield; exact .inl hmem
    | wrapper g => cases hfield; exact .inr hmem
    | octets bytes => cases hfield
  · rintro (hmem | hmem)
    · exact ⟨_, hmem, rfl⟩
    · exact ⟨_, hmem, rfl⟩

/-- What is written in a row has the headers of both parts. -/
theorem headers_andThen (h : (t.andThen u).failure = none) : t.failure = none ∧
    u.failure = none ∧ (t.andThen u).headers = t.headers ++ u.headers := by
  unfold andThen at h ⊢
  cases hfailure : t.failure with
  | none =>
    rw [hfailure] at h
    exact ⟨rfl, h, List.filterMap_append⟩
  | some e =>
    rw [hfailure] at h
    cases hfailure.symm.trans h

theorem headers_ofResult {result : Except Error (List UInt8)} : (ofResult result).headers = [] := by
  cases result <;> rfl

/-- A length is no header. -/
theorem headers_behindLength (h : t.behindLength.failure = none) :
    t.failure = none ∧ t.behindLength.headers = t.headers := by
  cases hfailure : t.failure with
  | none =>
    have hbehind : t.behindLength = (ofResult (LengthPrefix.bytes t.bytes.length)).andThen t := by
      rw [behindLength, hfailure]
    rw [hbehind] at h ⊢
    obtain ⟨-, -, hheaders⟩ := headers_andThen h
    exact ⟨rfl, by rw [hheaders, headers_ofResult, List.nil_append]⟩
  | some e =>
    rw [behindLength, hfailure] at h
    cases h

theorem headers_inField {f : Field} (h : (t.inField f).failure = none) :
    t.failure = none ∧ (t.inField f).headers = t.headers := by
  unfold inField at h ⊢
  split at h
  · next hlength =>
    rw [if_pos hlength]
    exact headers_behindLength h
  · next hlength =>
    rw [if_neg hlength]
    exact ⟨h, rfl⟩

end Transcript

namespace Value

mutual
/-- The fields in a value, at every level and in the order in which they are written. -/
def fieldsWithin : Value → List Field
  | .object fields => fieldsWithinFields fields
  | .array elements => fieldsWithinElements elements
  | _ => []

/-- The fields of an object and those in their values. -/
def fieldsWithinFields : List (Field × Value) → List Field
  | [] => []
  | (f, v) :: rest => f :: (fieldsWithin v ++ fieldsWithinFields rest)

/-- The fields around elements and those in the elements. -/
def fieldsWithinElements : List (Field × List (Field × Value)) → List Field
  | [] => []
  | (f, fields) :: rest => f :: (fieldsWithinFields fields ++ fieldsWithinElements rest)
end

mutual
/-- If a value is written, so are the headers of all fields in it, and no others. -/
theorem headers_transcript :
    (v : Value) → v.transcript.failure = none → v.transcript.headers = v.fieldsWithin
  | .object fields, h => by
    rw [transcript] at h ⊢
    rw [fieldsWithin, headers_transcriptFields fields h]
  | .array elements, h => by
    rw [transcript] at h ⊢
    rw [fieldsWithin, headers_transcriptElements elements h]
  | .uint8 _, _ | .uint16 _, _ | .uint32 _, _ | .uint64 _, _ | .hash128 _, _ | .hash160 _, _
  | .hash256 _, _ | .account _, _ | .blob _, _ | .amount _, _ | .currency _, _ | .issue _, _
  | .vector256 _, _ | .pathSet _, _ => by
    simp only [transcript, fieldsWithin]
    exact Transcript.headers_ofResult

theorem headers_transcriptFields : (fields : List (Field × Value)) →
    (transcriptFields fields).failure = none →
      (transcriptFields fields).headers = fieldsWithinFields fields
  | [], _ => by
    rw [transcriptFields, fieldsWithinFields]
    rfl
  | (f, v) :: rest, h => by
    rw [transcriptFields] at h ⊢
    obtain ⟨hfield, hbehind, hheaders⟩ := Transcript.headers_andThen h
    obtain ⟨-, hvalue, hheader⟩ := Transcript.headers_andThen hfield
    obtain ⟨-, hrest, hclosing⟩ := Transcript.headers_andThen hbehind
    obtain ⟨hv, hvheaders⟩ := Transcript.headers_inField hvalue
    rw [hheaders, hheader, hclosing, hvheaders, headers_transcript v hv,
      headers_transcriptFields rest hrest, fieldsWithinFields]
    rfl

theorem headers_transcriptElements : (elements : List (Field × List (Field × Value))) →
    (transcriptElements elements).failure = none →
      (transcriptElements elements).headers = fieldsWithinElements elements
  | [], _ => by
    rw [transcriptElements, fieldsWithinElements]
    rfl
  | (f, fields) :: rest, h => by
    rw [transcriptElements] at h ⊢
    obtain ⟨-, helement, hheaders⟩ := Transcript.headers_andThen h
    obtain ⟨hfields, hbehind, hheader⟩ := Transcript.headers_andThen helement
    obtain ⟨-, hrest, hclosing⟩ := Transcript.headers_andThen hbehind
    rw [hheaders, hheader, hclosing, headers_transcriptFields fields hfields,
      headers_transcriptElements rest hrest, fieldsWithinElements]
    rfl
end

end Value

namespace Object

/-- The fields of an object and those in their values. -/
abbrev fieldsWithin (fields : Object) : List Field := Value.fieldsWithinFields fields

/-- An object that can be written is written with the headers of all fields in it, in order. -/
theorem headers_of_toBytes {fields : Object} {bytes : List UInt8}
    (h : fields.toBytes = .ok bytes) : fields.transcript.headers = fields.fieldsWithin := by
  have hrun := (Value.records_writeFields fields).run
  rw [← Object.toBytes, h] at hrun
  refine Value.headers_transcriptFields fields ?_
  split at hrun
  · next hnone => exact hnone
  · cases hrun

end Object

end FieldWire
