import FieldWire.Proofs.Wire.Reading
import Mathlib.Tactic.Choose

/-!
# The steps of readers

What a reader does to a cursor while it runs shows in the steps that it is made of. These are few: a
reader counts the bytes before and behind its cursor, looks at the next byte, takes bytes, fails,
reports failures in another way, or runs another reader one level deeper. A `Script` is such a
composition. It is run as the reader that it describes (`Script.run`), and it has a `Script.trace`:
the steps of the run, each with the cursors around it and the bytes that it saw.

Every run of every script is safe. If the cursor stands in a byte string, within the limit on nesting,
then so do the cursors of all steps; no step goes back; what a step sees is what stands at its place,
all of it inside the byte string (`Script.isSafe_of_mem_trace`). The steps lead to where the run
ends, and that is at the depth at which it began, with a result or with a failure
(`Script.linked_trace`, `Script.isAhead_final`). So a reader is safe if it is the run of some script
(`Reader.IsStepwise.isSafe`), and being one is closed under sequencing.
-/

namespace FieldWire

/-! ### Places in a byte string -/

namespace Cursor

/-- The cursor stands in the byte string, and no more objects and arrays are open than allowed. -/
structure Within (data : List UInt8) (limit : Nat) (c : Cursor) : Prop where
  /-- What is left of the byte string is left of the cursor. -/
  rest_eq : c.rest = data.drop c.position
  /-- The cursor is not behind the end. -/
  position_le : c.position ≤ data.length
  /-- The depth is within the limit. -/
  depth_le : c.depth ≤ limit

/-- Whether nothing is left is told by the count. -/
theorem isEmpty_rest (c : Cursor) : c.rest.isEmpty = decide (c.remaining = 0) := by
  rw [remaining]
  cases c.rest <;> rfl

/-- The same place, one level deeper. -/
def down (c : Cursor) : Cursor := { c with depth := c.depth + 1 }

/-- The same place, one level higher. -/
def up (c : Cursor) : Cursor := { c with depth := c.depth - 1 }

/-- The place is some bytes further on, at the same depth. -/
def IsAhead (c d : Cursor) : Prop := ∃ n ≤ c.remaining, d = c.advance n

theorem within_start (bytes : List UInt8) (limit : Nat) : (start bytes).Within bytes limit :=
  ⟨rfl, Nat.zero_le _, Nat.zero_le _⟩

namespace Within

variable {data : List UInt8} {limit : Nat} {c d : Cursor}

/-- What is left are the bytes behind the position. -/
theorem remaining_eq (h : c.Within data limit) : c.remaining = data.length - c.position := by
  rw [remaining, h.rest_eq, List.length_drop]

theorem advance (h : c.Within data limit) {n : Nat} (hn : n ≤ c.remaining) :
    (c.advance n).Within data limit := by
  have hremaining := h.remaining_eq
  have hposition := h.position_le
  refine ⟨?_, ?_, h.depth_le⟩
  · rw [Cursor.advance, h.rest_eq, List.drop_drop]
  · rw [Cursor.advance]
    dsimp only
    omega

theorem down (h : c.Within data limit) (hlimit : c.depth < limit) : c.down.Within data limit :=
  ⟨h.rest_eq, h.position_le, hlimit⟩

theorem up (h : c.Within data limit) : c.up.Within data limit :=
  ⟨h.rest_eq, h.position_le, Nat.le_trans (Nat.sub_le _ _) h.depth_le⟩

end Within

namespace IsAhead

variable {c d e : Cursor}

theorem refl (c : Cursor) : c.IsAhead c := ⟨0, Nat.zero_le _, rfl⟩

theorem trans (h : c.IsAhead d) (h' : d.IsAhead e) : c.IsAhead e := by
  obtain ⟨m, hm, rfl⟩ := h
  obtain ⟨n, hn, rfl⟩ := h'
  have hsum : m + n ≤ c.remaining := by
    rw [remaining, advance, List.length_drop] at hn
    rw [remaining] at hm ⊢
    omega
  refine ⟨m + n, hsum, ?_⟩
  rw [advance, advance, advance, List.drop_drop, Nat.add_assoc]

theorem depth_eq (h : c.IsAhead d) : d.depth = c.depth := by
  obtain ⟨n, -, rfl⟩ := h
  rfl

theorem within (h : c.IsAhead d) {data : List UInt8} {limit : Nat} (hc : c.Within data limit) :
    d.Within data limit := by
  obtain ⟨n, hn, rfl⟩ := h
  exact hc.advance hn

theorem position_le (h : c.IsAhead d) : c.position ≤ d.position := by
  obtain ⟨n, -, rfl⟩ := h
  exact Nat.le_add_right _ _

/-- What is done one level deeper is the same place at the old depth. -/
theorem up_of_down (h : c.down.IsAhead d) : c.IsAhead d.up := by
  obtain ⟨n, hn, rfl⟩ := h
  exact ⟨n, hn, rfl⟩

end IsAhead

end Cursor

/-- The cursor where a reader ends, with a result or a failure. -/
def Reader.final {α : Type} (reader : Reader α) (c : Cursor) : Cursor :=
  match reader c with
  | .ok _ d => d
  | .error _ d => d

/-! ### Steps -/

/-- A step of a reader. -/
structure Step where
  /-- The cursor before the step. -/
  before : Cursor
  /-- The cursor behind the step. -/
  after : Cursor
  /-- The bytes that the step saw. -/
  seen : List UInt8

/-- The steps lead from one cursor to the other. -/
def Linked : Cursor → List Step → Cursor → Prop
  | c, [], d => c = d
  | c, step :: rest, d => step.before = c ∧ Linked step.after rest d

theorem Linked.append {c d e : Cursor} {first second : List Step} (h : Linked c first d)
    (h' : Linked d second e) : Linked c (first ++ second) e := by
  induction first generalizing c with
  | nil =>
    obtain rfl : c = d := h
    exact h'
  | cons step rest ih => exact ⟨h.1, ih h.2⟩

/-- The step is safe in a byte string. -/
structure Step.IsSafe (data : List UInt8) (limit : Nat) (step : Step) : Prop where
  /-- The step starts in the byte string. -/
  before : step.before.Within data limit
  /-- The step ends in the byte string. -/
  after : step.after.Within data limit
  /-- The step does not go back. -/
  position_le : step.before.position ≤ step.after.position
  /-- The step goes down or up by one level at most. -/
  depth : step.after.depth = step.before.depth ∨ step.after.depth = step.before.depth + 1 ∨
    step.before.depth = step.after.depth + 1
  /-- The bytes that the step saw end inside the byte string. -/
  seen_le : step.before.position + step.seen.length ≤ data.length
  /-- The bytes that the step saw are those at its place. -/
  seen_eq : step.seen = (data.drop step.before.position).take step.seen.length

/-- A step that sees nothing is safe if it stays in its place. -/
theorem Step.isSafe_of_blind {data : List UInt8} {limit : Nat} {c d : Cursor}
    (hc : c.Within data limit) (hd : d.Within data limit) (hposition : c.position = d.position)
    (hdepth : d.depth = c.depth ∨ d.depth = c.depth + 1 ∨ c.depth = d.depth + 1) :
    Step.IsSafe data limit ⟨c, d, []⟩ :=
  ⟨hc, hd, Nat.le_of_eq hposition, hdepth, hc.position_le, rfl⟩

/-! ### Single steps -/

/-- A reader that is a single step. -/
inductive Primitive : Type → Type
  /-- Counts the bytes that were read and those that are left. -/
  | count : Primitive (Nat × Nat)
  /-- Looks at the next byte. -/
  | peek : Primitive UInt8
  /-- Takes a byte. -/
  | byte : Primitive UInt8
  /-- Takes some bytes. -/
  | octets (n : Nat) : Primitive (Octets n)
  /-- Makes sure that some bytes are left. -/
  | need (n : Nat) : Primitive Unit

namespace Primitive

variable {α : Type}

/-- The step as a reader. -/
def run : Primitive α → Reader α
  | count => fun c => .ok (c.position, c.remaining) c
  | peek => Reader.peek
  | byte => Reader.byte
  | octets n => Reader.octets n
  | need n => Reader.need n

/-- The bytes that a step saw, from its result. -/
def seen : Primitive α → α → List UInt8
  | count, _ => []
  | peek, b => [b]
  | byte, b => [b]
  | octets _, bytes => bytes.toList
  | need _, _ => []

/-- The step from a cursor; a step that fails saw nothing. -/
def step (p : Primitive α) (c : Cursor) : Step :=
  match p.run c with
  | .ok a d => ⟨c, d, p.seen a⟩
  | .error _ d => ⟨c, d, []⟩

/-- A single step that fails stays in its place. -/
private theorem eq_of_run_error {p : Primitive α} {c d : Cursor} {e : Error}
    (h : p.run c = .error e d) : d = c := by
  obtain ⟨rest, position, depth⟩ := c
  cases p with
  | count => cases h
  | peek =>
    cases rest with
    | nil => cases h; rfl
    | cons b rest => cases h
  | byte =>
    cases rest with
    | nil => cases h; rfl
    | cons b rest => cases h
  | octets n =>
    rw [run, Reader.octets] at h
    split at h
    · cases h
    · cases h; rfl
  | need n =>
    rw [run, Reader.need] at h
    split at h
    · cases h
    · cases h; rfl

/-- A single step goes on by some bytes, and what it saw comes next. -/
private theorem exists_of_run_ok {p : Primitive α} {c d : Cursor} {a : α}
    (h : p.run c = .ok a d) : c.IsAhead d ∧ ∃ n ≤ c.remaining, p.seen a = c.rest.take n := by
  obtain ⟨rest, position, depth⟩ := c
  have hnothing : ∃ n ≤ rest.length, [] = rest.take n := ⟨0, Nat.zero_le _, rfl⟩
  cases p with
  | count =>
    cases h
    exact ⟨.refl _, hnothing⟩
  | peek =>
    cases rest with
    | nil => cases h
    | cons b rest =>
      cases h
      exact ⟨.refl _, 1, Nat.succ_pos _, rfl⟩
  | byte =>
    cases rest with
    | nil => cases h
    | cons b rest =>
      cases h
      exact ⟨⟨1, Nat.succ_pos _, rfl⟩, 1, Nat.succ_pos _, rfl⟩
  | octets n =>
    rw [run, Reader.octets] at h
    split at h
    · next hlength =>
      cases h
      have hn := List.length_take_le' n rest
      dsimp only at hlength
      rw [hlength] at hn
      exact ⟨⟨n, hn, rfl⟩, n, hn, rfl⟩
    · cases h
  | need n =>
    rw [run, Reader.need] at h
    split at h
    · cases h
      exact ⟨.refl _, hnothing⟩
    · cases h

/-- A single step leads to where the reader ends, and it is safe. -/
theorem step_spec (p : Primitive α) (c : Cursor) :
    p.step c = ⟨c, p.run.final c, (p.step c).seen⟩ ∧ c.IsAhead (p.run.final c) ∧
      ∃ n ≤ c.remaining, (p.step c).seen = c.rest.take n := by
  unfold step Reader.final
  cases hrun : p.run c with
  | ok a d =>
    obtain ⟨hahead, hseen⟩ := exists_of_run_ok hrun
    exact ⟨rfl, hahead, hseen⟩
  | error e d =>
    obtain rfl := eq_of_run_error hrun
    exact ⟨rfl, .refl _, 0, Nat.zero_le _, rfl⟩

theorem isSafe_step (p : Primitive α) {data : List UInt8} {limit : Nat} {c : Cursor}
    (hc : c.Within data limit) : (p.step c).IsSafe data limit := by
  obtain ⟨hstep, hahead, n, hn, hseen⟩ := p.step_spec c
  have hlength : (p.step c).seen.length = n := by
    rw [hseen, List.length_take]
    exact Nat.min_eq_left hn
  have hremaining := hc.remaining_eq
  have hposition := hc.position_le
  rw [hstep]
  refine ⟨hc, hahead.within hc, hahead.position_le, .inl hahead.depth_eq, ?_, ?_⟩
  · dsimp only
    omega
  · dsimp only
    rw [hlength, hseen, hc.rest_eq]

end Primitive

/-! ### Scripts -/

/-- A reader as a composition of steps. -/
inductive Script (limit : Nat) : Type → Type 1
  /-- Takes nothing and yields a value. -/
  | pure {α : Type} (a : α) : Script limit α
  /-- Fails. -/
  | fail {α : Type} (e : Error) : Script limit α
  /-- Does a single step. -/
  | single {α : Type} (p : Primitive α) : Script limit α
  /-- Reports failures in another way. -/
  | mapError {α : Type} (f : Error → Error) (s : Script limit α) : Script limit α
  /-- Runs a script one level deeper, if the limit allows. -/
  | nested {α : Type} (s : Script limit α) : Script limit α
  /-- Runs a script and goes on with its result. -/
  | bind {α β : Type} (s : Script limit α) (k : α → Script limit β) : Script limit β

namespace Script

variable {limit : Nat} {α : Type}

/-- The reader that a script describes. -/
def run {α : Type} : Script limit α → Reader α
  | pure a => Pure.pure a
  | fail e => throw e
  | single p => p.run
  | mapError f s => Reader.mapError f s.run
  | nested s => Reader.nested limit s.run
  | bind s k => s.run >>= fun a => (k a).run

/-- The steps of the run of a script. A level is entered and left in a step of its own. -/
def trace {α : Type} : Script limit α → Cursor → List Step
  | pure _, _ => []
  | fail _, _ => []
  | single p, c => [p.step c]
  | mapError _ s, c => s.trace c
  | nested s, c =>
    if limit ≤ c.depth then []
    else
      let d := s.run.final c.down
      ⟨c, c.down, []⟩ :: (s.trace c.down ++ [⟨d, d.up, []⟩])
  | bind s k, c =>
    s.trace c ++
      match s.run c with
      | .ok a d => (k a).trace d
      | .error _ _ => []

private theorem final_bind {β : Type} (x : Reader α) (k : α → Reader β) (c : Cursor) :
    (x >>= k).final c =
      match x c with
      | .ok a d => (k a).final d
      | .error _ d => d := by
  unfold Reader.final
  simp only [Bind.bind, EStateM.bind]
  cases x c <;> rfl

private theorem final_mapError (f : Error → Error) (x : Reader α) (c : Cursor) :
    (Reader.mapError f x).final c = x.final c := by
  unfold Reader.final Reader.mapError
  cases x c <;> rfl

private theorem final_nested (x : Reader α) (c : Cursor) :
    (Reader.nested limit x).final c = if limit ≤ c.depth then c else (x.final c.down).up := by
  unfold Reader.final Reader.nested
  by_cases hlimit : limit ≤ c.depth
  · rw [if_pos hlimit, if_pos hlimit]
  · have hdown : x { c with depth := c.depth + 1 } = x c.down := rfl
    rw [if_neg hlimit, if_neg hlimit, hdown]
    cases x c.down <;> rfl

/-- A run ends further on at the same depth, with a result or a failure. -/
theorem isAhead_final (s : Script limit α) (c : Cursor) : c.IsAhead (s.run.final c) := by
  induction s generalizing c with
  | pure a => exact .refl c
  | fail e => exact .refl c
  | single p => exact (p.step_spec c).2.1
  | mapError f s ih =>
    rw [run, final_mapError]
    exact ih c
  | nested s ih =>
    rw [run, final_nested]
    split
    · exact .refl c
    · exact (ih c.down).up_of_down
  | bind s k ihs ihk =>
    have hfirst := ihs c
    rw [run, final_bind]
    unfold Reader.final at hfirst
    cases hs : s.run c with
    | ok a d =>
      rw [hs] at hfirst
      exact hfirst.trans (ihk a d)
    | error e d =>
      rw [hs] at hfirst
      exact hfirst

/-- The steps of a run lead to where it ends. -/
theorem linked_trace (s : Script limit α) (c : Cursor) :
    Linked c (s.trace c) (s.run.final c) := by
  induction s generalizing c with
  | pure a => rfl
  | fail e => rfl
  | single p =>
    have hstep := (p.step_spec c).1
    rw [trace, hstep]
    exact ⟨rfl, rfl⟩
  | mapError f s ih =>
    rw [run, final_mapError, trace]
    exact ih c
  | nested s ih =>
    rw [run, final_nested, trace]
    split
    · rfl
    · exact ⟨rfl, (ih c.down).append ⟨rfl, rfl⟩⟩
  | bind s k ihs ihk =>
    have hfirst := ihs c
    rw [run, final_bind, trace]
    refine hfirst.append ?_
    unfold Reader.final
    cases s.run c with
    | ok a d => exact ihk a d
    | error e d => rfl

/-- All steps of a run are safe. -/
theorem isSafe_of_mem_trace (s : Script limit α) {data : List UInt8} {c : Cursor}
    (hc : c.Within data limit) : ∀ step ∈ s.trace c, step.IsSafe data limit := by
  induction s generalizing c with
  | pure a => exact List.forall_mem_nil _
  | fail e => exact List.forall_mem_nil _
  | single p => exact List.forall_mem_singleton.2 (p.isSafe_step hc)
  | mapError f s ih => exact ih hc
  | nested s ih =>
    rw [trace]
    split
    · exact List.forall_mem_nil _
    · next hlimit =>
      have hdown := hc.down (Nat.not_le.1 hlimit)
      -- the run inside ends at the depth at which it began, so there is a level to leave
      have hend := s.isAhead_final c.down
      have hlast := hend.within hdown
      have hdepth : (s.run.final c.down).depth = c.depth + 1 := hend.depth_eq
      have hback : (s.run.final c.down).depth = (s.run.final c.down).up.depth + 1 := by
        rw [Cursor.up]
        dsimp only
        omega
      dsimp only
      rw [List.forall_mem_cons, List.forall_mem_append, List.forall_mem_singleton]
      exact ⟨Step.isSafe_of_blind hc hdown rfl (.inr (.inl rfl)), ih hdown,
        Step.isSafe_of_blind hlast hlast.up rfl (.inr (.inr hback))⟩
  | bind s k ihs ihk =>
    -- the second part starts where the first one ended
    have hfirst := (s.isAhead_final c).within hc
    rw [trace, List.forall_mem_append]
    refine ⟨ihs hc, ?_⟩
    unfold Reader.final at hfirst
    cases hs : s.run c with
    | ok a d =>
      rw [hs] at hfirst
      exact ihk a hfirst
    | error e d => exact List.forall_mem_nil _

end Script

/-! ### Readers made of steps -/

namespace Reader

variable {limit : Nat} {α β : Type}

/-- The reader is made of steps. -/
def IsStepwise (limit : Nat) (x : Reader α) : Prop := ∃ s : Script limit α, s.run = x

/-- The reader is made of steps, and however it is made of them: in every byte string they are safe,
lead to where the reader ends, and end at the depth at which they began. -/
def IsSafe (limit : Nat) (x : Reader α) : Prop :=
  x.IsStepwise limit ∧ ∀ s : Script limit α, s.run = x → ∀ data c, c.Within data limit →
    Linked c (s.trace c) (x.final c) ∧ (∀ step ∈ s.trace c, step.IsSafe data limit) ∧
      (x.final c).depth = c.depth

namespace IsStepwise

variable {x : Reader α}

theorem isAhead_final (h : x.IsStepwise limit) (c : Cursor) : c.IsAhead (x.final c) := by
  obtain ⟨s, rfl⟩ := h
  exact s.isAhead_final c

theorem isSafe (h : x.IsStepwise limit) : x.IsSafe limit := by
  refine ⟨h, ?_⟩
  rintro s rfl data c hc
  exact ⟨s.linked_trace c, s.isSafe_of_mem_trace hc, (s.isAhead_final c).depth_eq⟩

/-- A reader that is made of steps takes bytes off the front. -/
theorem yields (h : x.IsStepwise limit) {depth : Nat} : x.Yields depth fun _ _ => True := by
  intro c a d hc hok
  obtain ⟨n, hn, hd⟩ := h.isAhead_final c
  rw [Reader.final, hok] at hd
  dsimp only at hd
  obtain rfl := hd
  have hn : n ≤ c.rest.length := hn
  refine ⟨c.rest.take n, (List.take_append_drop n c.rest).symm, ?_, hc, trivial⟩
  rw [List.length_take, Nat.min_eq_left hn]
  rfl

theorem pure (a : α) : (Pure.pure a : Reader α).IsStepwise limit := ⟨.pure a, rfl⟩

theorem throw (e : Error) : (MonadExcept.throw e : Reader α).IsStepwise limit := ⟨.fail e, rfl⟩

theorem peek : Reader.peek.IsStepwise limit := ⟨.single .peek, rfl⟩

theorem byte : Reader.byte.IsStepwise limit := ⟨.single .byte, rfl⟩

theorem octets (n : Nat) : (Reader.octets n).IsStepwise limit := ⟨.single (.octets n), rfl⟩

theorem need (n : Nat) : (Reader.need n).IsStepwise limit := ⟨.single (.need n), rfl⟩

theorem mapError (h : x.IsStepwise limit) (f : Error → Error) :
    (Reader.mapError f x).IsStepwise limit := by
  obtain ⟨s, rfl⟩ := h
  exact ⟨.mapError f s, rfl⟩

theorem nested (h : x.IsStepwise limit) : (Reader.nested limit x).IsStepwise limit := by
  obtain ⟨s, rfl⟩ := h
  exact ⟨.nested s, rfl⟩

theorem bind {k : α → Reader β} (h : x.IsStepwise limit) (hk : ∀ a, (k a).IsStepwise limit) :
    (x >>= k).IsStepwise limit := by
  obtain ⟨s, rfl⟩ := h
  choose t ht using hk
  refine ⟨.bind s t, ?_⟩
  rw [Script.run]
  simp only [ht]

/-- A reader may look at its cursor if it only goes by how many bytes were read and how many are
left. -/
theorem get_bind {k : Cursor → Reader β} (hk : ∀ c, (k c).IsStepwise limit)
    (hcount : ∀ c d, c.position = d.position → c.remaining = d.remaining → k c = k d) :
    (MonadState.get >>= k).IsStepwise limit := by
  choose t ht using hk
  -- any other cursor with the same counts will do
  refine ⟨.bind (.single .count) fun n => t ⟨List.replicate n.2 0, n.1, 0⟩, ?_⟩
  funext c
  have hremaining : c.remaining = Cursor.remaining ⟨List.replicate c.remaining 0, c.position, 0⟩ :=
    List.length_replicate.symm
  have hsame := hcount c ⟨List.replicate c.remaining 0, c.position, 0⟩ rfl hremaining
  calc (t ⟨List.replicate c.remaining 0, c.position, 0⟩).run c
    _ = k ⟨List.replicate c.remaining 0, c.position, 0⟩ c := by rw [ht]
    _ = k c c := by rw [← hsame]

theorem map (h : x.IsStepwise limit) (f : α → β) : (f <$> x).IsStepwise limit := by
  rw [map_eq_pure_bind]
  exact h.bind fun a => pure (f a)

theorem lift (result : Except Error α) : (Reader.lift result).IsStepwise limit := by
  cases result with
  | ok a => exact pure a
  | error e => exact throw e

theorem take (n : Nat) : (Reader.take n).IsStepwise limit :=
  (octets n).bind fun bytes => pure bytes.toList

theorem number (width : Nat) : (Reader.number width).IsStepwise limit :=
  (octets width).bind fun bytes => pure (BigEndian.toNat bytes.toList)

theorem checkWidth (kind : Kind) (length : Option Nat) (width : Nat) :
    (Reader.checkWidth kind length width).IsStepwise limit := by
  unfold Reader.checkWidth
  split
  · split
    · exact pure ()
    · exact throw _
  · exact pure ()

end IsStepwise

end Reader

end FieldWire
