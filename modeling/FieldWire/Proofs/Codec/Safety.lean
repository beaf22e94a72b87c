import FieldWire.Codec.Basic
import FieldWire.Proofs.Value.Loops

/-!
# Decoding is safe

Decoding takes any bytes, and whatever they are it comes to an end without leaving them
(`Codec.decode_safe`). That is so for every registry and for all limits, and it comes from four
facts about reading, which `Registry.ReadsSafely` puts together.

* Reading is a row of steps. All of them stand in the byte string and within the limit on nesting,
  none goes back, and each sees only bytes that are there.
* A value is read without a change of depth, also when that fails.
* Objects, arrays, path sets and paths are read in loops, in which every turn that goes on takes a
  byte. So there are no more of these turns than bytes are left.
* These loops, which run inside each other, are all that is read with, and their turns determine
  them.
-/

namespace FieldWire

/-- Reading with the registry and the limit on nesting is safe and comes to an end. -/
structure Registry.ReadsSafely (registry : Registry) (limit : Nat) : Prop where
  /-- The object of a byte string is read in safe steps. -/
  steps : (Object.readRoot registry limit).IsSafe limit
  /-- A value is read in safe steps. -/
  value_steps : ∀ kind length, (Value.read registry limit kind length).IsSafe limit
  /-- A value is read without a change of depth, with a result or with a failure. -/
  depth_eq : ∀ kind length c, ((Value.read registry limit kind length).final c).depth = c.depth
  /-- A value is not read backwards, so the count of bytes that it used is not negative. -/
  position_le : ∀ kind length c,
    c.position ≤ ((Value.read registry limit kind length).final c).position
  /-- The object of a byte string is read by the loop of fields. -/
  root_eq : Object.readRoot registry limit = Value.fields registry limit false []
  /-- Values are read with the loops of fields and elements. -/
  value_eq : Value.read registry limit =
    Value.readWith (Reader.nested limit (Value.fields registry limit true []))
      (Reader.nested limit (Value.elements registry limit []))
  /-- Path sets are read by the loop of paths, of which a turn runs the loop of steps. -/
  pathSet_eq : PathSet.read = PathSet.paths []
  /-- The loop of fields ends. -/
  objects : ∀ inner, Reader.IsLoop (Value.fieldTurn registry limit inner)
    (Value.fields registry limit inner)
  /-- The loop of elements ends. -/
  arrays : Reader.IsLoop (Value.elementTurn registry limit) (Value.elements registry limit)
  /-- The loop of paths ends. -/
  pathSets : Reader.IsLoop PathSet.pathTurn PathSet.paths
  /-- The loop of steps ends. -/
  paths : Reader.IsLoop PathSet.stepTurn PathSet.steps
  /-- The loops of fields and elements are determined by their turns. -/
  unique : ∀ objects arrays, Value.IsNest registry limit objects arrays →
    objects = Value.fields registry limit ∧ arrays = Value.elements registry limit

theorem Registry.readsSafely (registry : Registry) (limit : Nat) :
    registry.ReadsSafely limit where
  steps := (Object.isStepwise_readRoot registry).isSafe
  value_steps kind length := (Value.isStepwise_read registry kind length).isSafe
  depth_eq kind length c := ((Value.isStepwise_read registry kind length).isAhead_final c).depth_eq
  position_le kind length c :=
    ((Value.isStepwise_read registry kind length).isAhead_final c).position_le
  root_eq := Value.readRoot_eq registry limit
  value_eq := Value.read_eq registry limit
  pathSet_eq := PathSet.read_eq
  objects := Value.isLoop_fields registry limit
  arrays := Value.isLoop_elements registry limit
  pathSets := PathSet.isLoop_paths
  paths := PathSet.isLoop_steps
  unique _ _ h := h.eq

namespace Codec

/-- How decoding ends: too many bytes are refused unread, bytes that cannot be read have an error,
and the object of others is shown. -/
inductive Decodes (codec : Codec) (bytes : List UInt8) : Except Error Json → Prop
  /-- There are too many bytes. -/
  | oversized (h : codec.maxInput < bytes.length) :
      Decodes codec bytes (.error (.oversizedInput bytes.length codec.maxInput))
  /-- The bytes cannot be read. -/
  | unread (hsize : bytes.length ≤ codec.maxInput) {e : Error} {c : Cursor}
      (h : Object.readRoot codec.registry codec.maxDepth (.start bytes) = .error e c) :
      Decodes codec bytes (.error e)
  /-- The bytes are an object, which may have a plain form. -/
  | read (hsize : bytes.length ≤ codec.maxInput) {fields : Object} {c : Cursor}
      (h : Object.readRoot codec.registry codec.maxDepth (.start bytes) = .ok fields c) :
      Decodes codec bytes (fields.toJson codec.context)

private theorem decodes (codec : Codec) (bytes : List UInt8) :
    codec.Decodes bytes (codec.decode bytes) := by
  unfold decode
  by_cases hsize : codec.maxInput < bytes.length
  · rw [if_pos hsize]
    exact .oversized hsize
  · rw [if_neg hsize]
    have hsize := Nat.not_lt.1 hsize
    unfold Object.ofBytes
    cases hread : Object.readRoot codec.registry codec.maxDepth (.start bytes) with
    | ok fields c => exact .read hsize hread
    | error e c => exact .unread hsize hread

/-- **Decoding is safe.** For every codec and all bytes, decoding ends in one of the ways listed,
reading the bytes is safe, and it starts at a place inside them. -/
theorem decode_safe (codec : Codec) (bytes : List UInt8) :
    codec.Decodes bytes (codec.decode bytes) ∧ codec.registry.ReadsSafely codec.maxDepth ∧
      (Cursor.start bytes).Within bytes codec.maxDepth :=
  ⟨codec.decodes bytes, codec.registry.readsSafely codec.maxDepth,
    Cursor.within_start bytes codec.maxDepth⟩

end Codec

end FieldWire
