import FieldWire.Proofs.Wire.Steps

/-!
# Loops that end

A loop of a reader is told by its turn, which goes on with a new state or leaves the loop with a
result. A turn of the wire format that goes on has taken a byte, so there are no more such turns than
bytes are left. That is what `Reader.IsLoop` says of a reader and a turn: the reader is its turn
followed by itself, turns that go on take bytes, and every run is a row of so many turns.

The readers of lists recurse on a number instead, which must exceed the count of bytes left. Two such
numbers make no difference (`Reader.settled_of_turn`), and so the reader that starts with a number
just great enough at every cursor (`Reader.unfueled`) is a loop without one
(`Reader.isLoop_unfueled`).
-/

namespace FieldWire

namespace Reader

variable {σ α β : Type}

/-! ### Readers that agree near the end -/

/-- The readers do the same where fewer than `n` bytes are left. -/
def EqBelow (n : Nat) (x y : Reader α) : Prop := ∀ c, c.remaining < n → x c = y c

namespace EqBelow

variable {n : Nat} {x y : Reader α}

theorem refl (n : Nat) (x : Reader α) : EqBelow n x x := fun _ _ => rfl

/-- No cursor has less than no bytes left. -/
theorem zero (x y : Reader α) : EqBelow 0 x y := fun _ hc => absurd hc (Nat.not_lt_zero _)

theorem trans {z : Reader α} (h : EqBelow n x y) (h' : EqBelow n y z) : EqBelow n x z :=
  fun c hc => (h c hc).trans (h' c hc)

theorem bind_left (h : EqBelow n x y) (k : α → Reader β) : EqBelow n (x >>= k) (y >>= k) := by
  intro c hc
  simp only [Bind.bind, EStateM.bind, h c hc]

/-- Behind a reader that takes at least `m` bytes, so many more may have been left before it. -/
theorem bind {m : Nat} {k l : α → Reader β}
    (hx : ∀ depth, x.Yields depth fun taken _ => m ≤ taken.length)
    (hk : ∀ a, EqBelow n (k a) (l a)) : EqBelow (n + m) (x >>= k) (x >>= l) := by
  intro c hc
  simp only [Bind.bind, EStateM.bind]
  cases hxc : x c with
  | error e d => rfl
  | ok a d =>
    obtain ⟨taken, hrest, -, -, hlength⟩ := hx c.depth c a d rfl hxc
    refine hk a d ?_
    rw [Cursor.remaining, hrest, List.length_append] at hc
    rw [Cursor.remaining]
    omega

/-- Readers that are made of steps, whatever the limit, may come first. -/
theorem bind_right {k l : α → Reader β} (hx : ∀ limit, x.IsStepwise limit)
    (hk : ∀ a, EqBelow n (k a) (l a)) : EqBelow n (x >>= k) (x >>= l) :=
  bind (m := 0) (fun depth => (hx depth).yields.mono fun _ _ _ => Nat.zero_le _) hk

theorem get_bind {k l : Cursor → Reader β} (hk : ∀ c, EqBelow n (k c) (l c)) :
    EqBelow n (MonadState.get >>= k) (MonadState.get >>= l) :=
  fun c hc => hk c c hc

theorem nested (limit : Nat) (h : EqBelow n x y) :
    EqBelow n (Reader.nested limit x) (Reader.nested limit y) := by
  intro c hc
  have hdown := h { c with depth := c.depth + 1 } hc
  simp only [Reader.nested, hdown]

end EqBelow

/-! ### Turns -/

/-- How a turn of a loop ends. -/
inductive Turn (σ α : Type) where
  /-- The loop goes on with a new state. -/
  | again (s : σ)
  /-- The loop is left with a result. -/
  | leave (a : α)

/-- What follows on a turn of a loop. -/
def next (loop : σ → Reader α) : Turn σ α → Reader α
  | .again s => loop s
  | .leave a => pure a

/-- A run of so many turns that go on and of one that does not. -/
inductive Turns (turn : σ → Reader (Turn σ α)) :
    Nat → σ → Cursor → EStateM.Result Error Cursor α → Prop
  /-- The loop is left. -/
  | leave {s : σ} {c d : Cursor} {a : α} (h : turn s c = .ok (.leave a) d) :
      Turns turn 0 s c (.ok a d)
  /-- The turn fails. -/
  | fail {s : σ} {c d : Cursor} {e : Error} (h : turn s c = .error e d) :
      Turns turn 0 s c (.error e d)
  /-- The loop goes on. -/
  | again {n : Nat} {s s' : σ} {c d : Cursor} {result : EStateM.Result Error Cursor α}
      (h : turn s c = .ok (.again s') d) (hrest : Turns turn n s' d result) :
      Turns turn (n + 1) s c result

/-- Turns that go on take bytes. -/
def Consumes (turn : σ → Reader (Turn σ α)) : Prop :=
  ∀ s c s' d, turn s c = .ok (.again s') d →
    ∃ taken, taken ≠ [] ∧ c.rest = taken ++ d.rest ∧ d.position = c.position + taken.length

/-- The reader is the loop of a turn, and it ends. -/
structure IsLoop (turn : σ → Reader (Turn σ α)) (loop : σ → Reader α) : Prop where
  /-- The loop is its turn, followed by itself if the turn goes on. -/
  eq : ∀ s, loop s = turn s >>= next loop
  /-- Every turn that goes on takes at least one byte. -/
  consumes : Consumes turn
  /-- There are no more turns that go on than bytes are left. -/
  ends : ∀ s c, ∃ n ≤ c.remaining, Turns turn n s c (loop s c)

variable {turn : σ → Reader (Turn σ α)} {loop loop' : σ → Reader α}

theorem Consumes.lt (h : Consumes turn) {s s' : σ} {c d : Cursor}
    (hturn : turn s c = .ok (.again s') d) : d.remaining < c.remaining := by
  obtain ⟨taken, htaken, hrest, -⟩ := h s c s' d hturn
  have hlength := List.length_pos_iff.2 htaken
  rw [Cursor.remaining, Cursor.remaining, hrest, List.length_append]
  omega

/-- Turns take bytes if this is so for those that go on. -/
theorem consumes_of_yields (h : ∀ s depth, (turn s).Yields depth fun taken t =>
    ∀ s', t = .again s' → taken ≠ []) : Consumes turn := by
  intro s c s' d hturn
  obtain ⟨taken, hrest, hposition, -, htaken⟩ := h s c.depth c (.again s') d rfl hturn
  exact ⟨taken, htaken s' rfl, hrest, hposition⟩

/-- What follows on a turn counts only where fewer bytes are left. -/
theorem Consumes.eqBelow (h : Consumes turn) {n : Nat} (hloop : ∀ s, EqBelow n (loop s) (loop' s))
    (s : σ) : EqBelow (n + 1) (turn s >>= next loop) (turn s >>= next loop') := by
  intro c hc
  simp only [Bind.bind, EStateM.bind]
  cases hturn : turn s c with
  | error e d => rfl
  | ok t d =>
    cases t with
    | leave a => rfl
    | again s' =>
      have hlt := h.lt hturn
      exact hloop s' d (by omega)

/-- A reader that is its turn followed by itself is a loop if turns that go on take bytes. -/
theorem isLoop_of_eq (heq : ∀ s, loop s = turn s >>= next loop) (h : Consumes turn) :
    IsLoop turn loop := by
  refine ⟨heq, h, fun s c => ?_⟩
  -- by induction on how many bytes are left
  induction hleft : c.remaining using Nat.strongRecOn generalizing s c with
  | ind n ih =>
    have hrun := congrFun (heq s) c
    simp only [Bind.bind, EStateM.bind] at hrun
    cases hturn : turn s c with
    | error e d =>
      rw [hturn] at hrun
      exact ⟨0, Nat.zero_le _, hrun ▸ .fail hturn⟩
    | ok t d =>
      rw [hturn] at hrun
      cases t with
      | leave a => exact ⟨0, Nat.zero_le _, hrun ▸ .leave hturn⟩
      | again s' =>
        have hlt := h.lt hturn
        rw [hleft] at hlt
        obtain ⟨m, hm, hturns⟩ := ih d.remaining hlt s' d rfl
        exact ⟨m + 1, Nat.lt_of_le_of_lt hm hlt, hrun ▸ .again hturn hturns⟩

/-! ### Fuel -/

/-- A recursion on a number, started with one just above the count of bytes left. -/
def unfueled (run : Nat → σ → Reader α) (s : σ) : Reader α := fun c => run (c.remaining + 1) s c

/-- Numbers above the count of bytes left make no difference. -/
def IsSettled (run : Nat → σ → Reader α) : Prop :=
  ∀ fuel more s, fuel ≤ more → EqBelow fuel (run fuel s) (run more s)

variable {run : Nat → σ → Reader α}

theorem IsSettled.eqBelow (h : IsSettled run) (fuel : Nat) (s : σ) :
    EqBelow fuel (run fuel s) (unfueled run s) :=
  fun c hc => (h (c.remaining + 1) fuel s hc c (Nat.lt_succ_self _)).symm

/-- A recursion that does a turn for every number is settled if turns that go on take bytes. -/
theorem settled_of_turn (h : Consumes turn)
    (hrun : ∀ fuel s, EqBelow (fuel + 1) (run (fuel + 1) s) (turn s >>= next (run fuel))) :
    IsSettled run := by
  intro fuel
  induction fuel with
  | zero => exact fun more s _ => .zero _ _
  | succ fuel ih =>
    intro more s hle c hc
    obtain ⟨k, rfl⟩ : ∃ k, more = k + 1 := ⟨more - 1, by omega⟩
    have hnext := h.eqBelow (fun s' => ih k s' (by omega)) s c hc
    rw [hrun fuel s c hc, hrun k s c (by omega), hnext]

/-- A settled recursion that does a turn for every number is a loop. -/
theorem isLoop_unfueled (hsettled : IsSettled run) (h : Consumes turn)
    (hrun : ∀ fuel s, EqBelow (fuel + 1) (run (fuel + 1) s) (turn s >>= next (run fuel))) :
    IsLoop turn (unfueled run) := by
  refine isLoop_of_eq (fun s => funext fun c => ?_) h
  -- the first turn has the number above the count of bytes, and the next ones have enough
  have hnext := h.eqBelow (hsettled.eqBelow c.remaining) s c (Nat.lt_succ_self _)
  rw [← hnext, ← hrun c.remaining s c (Nat.lt_succ_self _)]
  rfl

theorem IsStepwise.unfueled {limit : Nat} (h : ∀ fuel s, (run fuel s).IsStepwise limit) (s : σ) :
    (Reader.unfueled run s).IsStepwise limit :=
  .get_bind (k := fun c => run (c.remaining + 1) s) (fun c => h (c.remaining + 1) s)
    fun c d _ hremaining => by rw [hremaining]

end Reader

end FieldWire
