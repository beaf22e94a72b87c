import FieldWire.Wire.Writer

/-!
# What a writer appends

Writers run on a buffer that already holds something. `Writer.IsAppend` says that this does not
matter: a writer that succeeds on an empty buffer appends the same bytes to any other, and one that
fails there fails everywhere, with the same error and nothing taken away. Every value and every
object is written in this way (`isAppend_write`, `isAppend_writeFields`), which turns the bytes of a
compound value into an equation between the bytes of its parts: `Value.toBytes_object`,
`Object.toBytes_cons_eq_ok_iff` and `Value.toBytes_array_cons_eq_ok_iff`. The rest of the theory
speaks of bytes alone.
-/

namespace FieldWire

namespace Writer

/-! ### Buffers do not matter -/

theorem append_append (buffer : Array UInt8) (u v : List UInt8) :
    buffer ++ u ++ v = buffer ++ (u ++ v) := by
  refine Array.ext' ?_
  simp

/-- What the writer does to any buffer is told by what it does to an empty one. -/
def IsAppend (writer : Writer Unit) : Prop :=
  ∀ buffer, (∀ bytes, writer.run = .ok bytes → writer buffer = .ok () (buffer ++ bytes)) ∧
    ∀ e, writer.run = .error e → ∃ more : List UInt8, writer buffer = .error e (buffer ++ more)

theorem IsAppend.apply_ok {writer : Writer Unit} (h : writer.IsAppend) {bytes : List UInt8}
    (hrun : writer.run = .ok bytes) (buffer : Array UInt8) :
    writer buffer = .ok () (buffer ++ bytes) :=
  (h buffer).1 bytes hrun

theorem IsAppend.apply_error {writer : Writer Unit} (h : writer.IsAppend) {e : Error}
    (hrun : writer.run = .error e) (buffer : Array UInt8) :
    ∃ more : List UInt8, writer buffer = .error e (buffer ++ more) :=
  (h buffer).2 e hrun

@[simp] theorem run_append (bytes : List UInt8) : (append bytes).run = .ok bytes := by
  simp [run, append]

@[simp] theorem run_pure : (pure () : Writer Unit).run = .ok [] := rfl

@[simp] theorem run_appendOf (result : Except Error (List UInt8)) :
    (appendOf result).run = result := by
  cases result with
  | ok bytes => exact run_append bytes
  | error e => rfl

theorem isAppend_append (bytes : List UInt8) : (append bytes).IsAppend := by
  refine fun buffer => ⟨fun more h => ?_, fun e h => ?_⟩
  · rw [run_append] at h
    cases h
    rfl
  · rw [run_append] at h
    cases h

theorem isAppend_pure : (pure () : Writer Unit).IsAppend := by
  refine fun buffer => ⟨fun more h => ?_, fun e h => ?_⟩
  · rw [run_pure] at h
    cases h
    change EStateM.Result.ok () buffer = _
    simp
  · cases h

theorem isAppend_appendOf (result : Except Error (List UInt8)) : (appendOf result).IsAppend := by
  cases result with
  | ok bytes => exact isAppend_append bytes
  | error e =>
    refine fun buffer => ⟨fun bytes h => ?_, fun f h => ⟨[], ?_⟩⟩
    · cases h
    · cases h
      change EStateM.Result.error e buffer = _
      simp

/-! ### Writers in a row -/

section Bind

variable {first second : Writer Unit} {buffer next : Array UInt8} {e : Error}

theorem bind_of_ok (h : first buffer = .ok () next) :
    (first >>= fun _ => second) buffer = second next := by
  simp only [Bind.bind, EStateM.bind, h]

theorem bind_of_error (h : first buffer = .error e next) :
    (first >>= fun _ => second) buffer = .error e next := by
  simp only [Bind.bind, EStateM.bind, h]

/-- A writer that succeeds or fails on an empty buffer, with what it leaves there. -/
theorem run_eq_ok_iff {writer : Writer Unit} {bytes : List UInt8} :
    writer.run = .ok bytes ↔ writer #[] = .ok () bytes.toArray := by
  unfold run
  constructor
  · intro h
    split at h
    · next u out hout =>
      cases h
      simpa using hout
    · cases h
  · intro h
    rw [h]

theorem run_eq_error_iff {writer : Writer Unit} :
    writer.run = .error e ↔ ∃ out, writer #[] = .error e out := by
  unfold run
  constructor
  · intro h
    split at h
    · cases h
    · next f out hout =>
      cases h
      exact ⟨out, hout⟩
  · rintro ⟨out, h⟩
    rw [h]

/-- The bytes of two writers in a row are those of the first and those of the second. -/
theorem run_bind (hsecond : second.IsAppend) :
    (first >>= fun _ => second).run = do return (← first.run) ++ (← second.run) := by
  cases hf : first.run with
  | error e =>
    obtain ⟨out, hout⟩ := run_eq_error_iff.1 hf
    exact run_eq_error_iff.2 ⟨out, bind_of_error hout⟩
  | ok u =>
    have hok := run_eq_ok_iff.1 hf
    cases hs : second.run with
    | ok v =>
      refine run_eq_ok_iff.2 ?_
      rw [bind_of_ok hok, hsecond.apply_ok hs]
      simp
    | error e =>
      obtain ⟨more, hmore⟩ := hsecond.apply_error hs u.toArray
      refine run_eq_error_iff.2 ⟨u.toArray ++ more, ?_⟩
      rw [bind_of_ok hok, hmore]

theorem run_bind_eq_ok_iff (hsecond : second.IsAppend) {bytes : List UInt8} :
    (first >>= fun _ => second).run = .ok bytes ↔
      ∃ u v, first.run = .ok u ∧ second.run = .ok v ∧ bytes = u ++ v := by
  rw [run_bind hsecond]
  cases first.run with
  | error e => simp [bind, Except.bind]
  | ok u =>
    cases second.run with
    | error e => simp [bind, Except.bind]
    | ok v => simp [bind, Except.bind, pure, Except.pure, eq_comm]

/-- Bytes that are written first stand in front. -/
theorem run_append_bind (hsecond : second.IsAppend) (lead : List UInt8) :
    (append lead >>= fun _ => second).run = second.run.map (lead ++ ·) := by
  rw [run_bind hsecond, run_append]
  cases second.run <;> rfl

/-- Bytes that are written last stand behind. -/
theorem run_bind_append (first : Writer Unit) (tail : List UInt8) :
    (first >>= fun _ => append tail).run = first.run.map (· ++ tail) := by
  rw [run_bind (isAppend_append tail), run_append]
  cases first.run <;> rfl

theorem IsAppend.bind (hfirst : first.IsAppend) (hsecond : second.IsAppend) :
    (first >>= fun _ => second).IsAppend := by
  intro buffer
  cases hf : first.run with
  | error e =>
    obtain ⟨more, hmore⟩ := hfirst.apply_error hf buffer
    rw [run_bind hsecond, hf]
    refine ⟨fun bytes h => ?_, fun f h => ?_⟩
    · cases h
    · cases h
      exact ⟨more, bind_of_error hmore⟩
  | ok u =>
    have hok : (first >>= fun _ => second) buffer = second (buffer ++ u) :=
      bind_of_ok (hfirst.apply_ok hf buffer)
    rw [run_bind hsecond, hf, hok]
    cases hs : second.run with
    | ok v =>
      refine ⟨fun bytes h => ?_, fun f h => ?_⟩
      · cases h
        rw [hsecond.apply_ok hs, append_append]
      · cases h
    | error e =>
      obtain ⟨more, hmore⟩ := hsecond.apply_error hs (buffer ++ u)
      refine ⟨fun bytes h => ?_, fun f h => ⟨u ++ more, ?_⟩⟩
      · cases h
      · cases h
        rw [hmore, append_append]

end Bind

/-! ### Lengths and fields -/

/-- Bytes behind their length. -/
def prefixed (bytes : List UInt8) : Except Error (List UInt8) :=
  (LengthPrefix.bytes bytes.length).map (· ++ bytes)

/-- The buffer of its own is gone in the end: a value behind its length is appended in one go. -/
theorem withLength_eq_appendOf (writer : Writer Unit) :
    withLength writer = appendOf (writer.run.bind prefixed) := by
  funext buffer
  cases hrun : writer.run with
  | error e =>
    obtain ⟨out, hout⟩ := run_eq_error_iff.1 hrun
    simp only [withLength, apart, Bind.bind, EStateM.bind, hout]
    rfl
  | ok bytes =>
    have hok := run_eq_ok_iff.1 hrun
    simp only [withLength, apart, Bind.bind, EStateM.bind, hok, Except.bind, prefixed,
      List.size_toArray]
    cases hp : LengthPrefix.bytes bytes.length with
    | error e => simp only [appendOf, Except.map]
    | ok head => simp only [appendOf, append, Except.map, append_append]

end Writer

/-- The bytes of a field's value, behind their length where the field has one. -/
def Field.frame (f : Field) (bytes : List UInt8) : Except Error (List UInt8) :=
  if f.variableLength then Writer.prefixed bytes else .ok bytes

theorem Field.frame_of_variableLength (f : Field) (h : f.variableLength = true) :
    f.frame = Writer.prefixed := by
  funext bytes
  rw [Field.frame, if_pos h]

theorem Field.frame_of_fixedLength (f : Field) (h : f.variableLength = false) :
    f.frame = .ok := by
  funext bytes
  rw [Field.frame, h, if_neg Bool.false_ne_true]

/-- What stands behind the value of a field: the end marker if the value is an object. -/
def Field.closing (f : Field) : List UInt8 := if f.isObject then [objectEnd] else []

namespace Writer

theorem isAppend_framed {value : Writer Unit} (f : Field) (h : value.IsAppend) :
    (if f.variableLength then withLength value else value).IsAppend := by
  split
  · rw [withLength_eq_appendOf]
    exact isAppend_appendOf _
  · exact h

theorem run_framed (f : Field) (value : Writer Unit) :
    (if f.variableLength then withLength value else value).run = value.run.bind f.frame := by
  cases h : f.variableLength with
  | true =>
    rw [if_pos rfl, withLength_eq_appendOf, run_appendOf, f.frame_of_variableLength h]
  | false =>
    rw [if_neg Bool.false_ne_true, f.frame_of_fixedLength h]
    cases value.run <;> rfl

theorem isAppend_fieldWith {value : Writer Unit} (f : Field) (h : value.IsAppend) :
    (fieldWith f value).IsAppend :=
  (isAppend_append _).bind (isAppend_framed f h)

/-- The bytes of a field are its header and the bytes of its value, framed. -/
theorem run_fieldWith_eq_ok_iff {f : Field} {value : Writer Unit} (h : value.IsAppend)
    {bytes : List UInt8} : (fieldWith f value).run = .ok bytes ↔
      ∃ inner framed, value.run = .ok inner ∧ f.frame inner = .ok framed ∧
        bytes = f.header.bytes ++ framed := by
  rw [fieldWith, run_bind_eq_ok_iff (isAppend_framed f h), run_append, run_framed]
  cases value.run with
  | error e => simp [Except.bind]
  | ok inner => simp [Except.bind]

/-- Appending nothing can be left out. -/
theorem append_nil_bind (writer : Writer Unit) : (append [] >>= fun _ => writer) = writer := by
  funext buffer
  have h : append [] buffer = .ok () buffer := by simp [append]
  rw [bind_of_ok h]

end Writer

/-! ### Values and objects -/

namespace Value

theorem writeFields_cons (f : Field) (v : Value) (rest : Object) :
    writeFields ((f, v) :: rest) = (Writer.fieldWith f v.write >>= fun _ =>
      Writer.append f.closing >>= fun _ => writeFields rest) := by
  simp only [writeFields, Field.closing]
  split
  · rfl
  · rw [Writer.append_nil_bind]

theorem writeElements_cons (f : Field) (fields : Object) (rest : List Element) :
    writeElements ((f, fields) :: rest) = (Writer.append f.header.bytes >>= fun _ =>
      writeFields fields >>= fun _ => Writer.append [objectEnd] >>= fun _ =>
        writeElements rest) := by
  rw [writeElements]

mutual
/-- Values are written in an append-only way. -/
theorem isAppend_write : (v : Value) → v.write.IsAppend
  | .uint8 _ | .uint16 _ | .uint32 _ | .uint64 _ | .hash128 _ | .hash160 _ | .hash256 _
  | .account _ | .blob _ | .amount _ | .currency _ | .issue _ | .vector256 _ => by
    rw [write]
    exact Writer.isAppend_append _
  | .pathSet paths => by
    rw [write]
    exact Writer.isAppend_appendOf _
  | .object fields => by
    rw [write]
    exact isAppend_writeFields fields
  | .array elements => by
    rw [write]
    exact isAppend_writeElements elements

/-- Objects are written in an append-only way. -/
theorem isAppend_writeFields : (fields : List (Field × Value)) → (writeFields fields).IsAppend
  | [] => by
    rw [writeFields]
    exact Writer.isAppend_pure
  | (f, v) :: rest => by
    rw [writeFields_cons]
    exact (Writer.isAppend_fieldWith f (isAppend_write v)).bind
      ((Writer.isAppend_append _).bind (isAppend_writeFields rest))

/-- Arrays are written in an append-only way. -/
theorem isAppend_writeElements :
    (elements : List (Field × List (Field × Value))) → (writeElements elements).IsAppend
  | [] => by
    rw [writeElements]
    exact Writer.isAppend_append _
  | (f, fields) :: rest => by
    rw [writeElements_cons]
    exact (Writer.isAppend_append _).bind ((isAppend_writeFields fields).bind
      ((Writer.isAppend_append _).bind (isAppend_writeElements rest)))
end

theorem toBytes_object (fields : Object) : (object fields).toBytes = Object.toBytes fields := by
  rw [toBytes, write, Object.toBytes]

theorem toBytes_array_nil : (array []).toBytes = .ok [arrayEnd] := by
  rw [toBytes, write, writeElements, Writer.run_append]

/-- The bytes of an array are those of its first element, closed, and those of the others. -/
theorem toBytes_array_cons_eq_ok_iff {f : Field} {fields : Object} {rest : List Element}
    {bytes : List UInt8} : (array ((f, fields) :: rest)).toBytes = .ok bytes ↔
      ∃ body tail, Object.toBytes fields = .ok body ∧ (array rest).toBytes = .ok tail ∧
        bytes = f.header.bytes ++ (body ++ objectEnd :: tail) := by
  have hclose : (Writer.append [objectEnd] >>= fun _ => writeElements rest).IsAppend :=
    (Writer.isAppend_append _).bind (isAppend_writeElements rest)
  simp only [toBytes, write, Object.toBytes, writeElements_cons,
    Writer.run_bind_eq_ok_iff ((isAppend_writeFields fields).bind hclose),
    Writer.run_bind_eq_ok_iff hclose, Writer.run_bind_eq_ok_iff (isAppend_writeElements rest),
    Writer.run_append, Except.ok.injEq]
  constructor
  · rintro ⟨_, _, rfl, ⟨body, _, hbody, ⟨_, tail, rfl, htail, rfl⟩, rfl⟩, rfl⟩
    exact ⟨body, tail, hbody, htail, rfl⟩
  · rintro ⟨body, tail, hbody, htail, rfl⟩
    exact ⟨_, _, rfl, ⟨body, _, hbody, ⟨_, tail, rfl, htail, rfl⟩, rfl⟩, rfl⟩

end Value

namespace Object

theorem toBytes_nil : toBytes [] = .ok [] := by
  rw [toBytes, Value.writeFields, Writer.run_pure]

/-- The bytes of an object are those of its first field, closed where that holds an object, and
those of the others. -/
theorem toBytes_cons_eq_ok_iff {f : Field} {v : Value} {rest : Object} {bytes : List UInt8} :
    toBytes ((f, v) :: rest) = .ok bytes ↔
      ∃ inner framed tail, v.toBytes = .ok inner ∧ f.frame inner = .ok framed ∧
        toBytes rest = .ok tail ∧ bytes = f.header.bytes ++ (framed ++ (f.closing ++ tail)) := by
  have hrest := Value.isAppend_writeFields rest
  simp only [toBytes, Value.toBytes, Value.writeFields_cons,
    Writer.run_bind_eq_ok_iff ((Writer.isAppend_append f.closing).bind hrest),
    Writer.run_bind_eq_ok_iff hrest, Writer.run_append, Except.ok.injEq,
    Writer.run_fieldWith_eq_ok_iff (Value.isAppend_write v)]
  constructor
  · rintro ⟨_, _, ⟨inner, framed, hinner, hframed, rfl⟩, ⟨_, tail, rfl, htail, rfl⟩, rfl⟩
    exact ⟨inner, framed, tail, hinner, hframed, htail, List.append_assoc _ _ _⟩
  · rintro ⟨inner, framed, tail, hinner, hframed, htail, rfl⟩
    exact ⟨_, _, ⟨inner, framed, hinner, hframed, rfl⟩, ⟨_, tail, rfl, htail, rfl⟩,
      (List.append_assoc _ _ _).symm⟩

end Object

end FieldWire
