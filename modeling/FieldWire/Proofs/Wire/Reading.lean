import FieldWire.Wire.Cursor

/-!
# What a reader takes

Two statements about a reader carry every fact about the wire format.

* `reader.Reads depth bytes a`: where these bytes come next, the reader takes exactly them and
  yields `a`, whatever follows and however many bytes were read before. This is what a reader does
  with bytes that a writer wrote.
* `reader.Yields depth P`: whenever the reader succeeds, it took some bytes off the front, left the
  depth as it was, and the bytes and the value satisfy `P`. This is what can be said of bytes that
  nobody vouches for.

Both hold at one depth of open objects and arrays, because the limit on nesting makes a reader
depend on it. Both are closed under sequencing (`Reads.bind`, `Yields.bind`), so a reader's law is
assembled from those of its steps. A step that looks ahead without taking anything has no `Reads`
law of its own and gets one together with what comes behind it (`Reads.peeks_bind`,
`Reads.need_bind`).
-/

namespace FieldWire

namespace Reader

variable {α β : Type} {depth : Nat}

/-! ### Sequencing, on a cursor -/

theorem bind_eq_ok_iff {x : Reader α} {k : α → Reader β} {c d : Cursor} {b : β} :
    (x >>= k) c = .ok b d ↔ ∃ a e, x c = .ok a e ∧ k a e = .ok b d := by
  simp only [Bind.bind, EStateM.bind]
  constructor
  · intro h
    split at h
    · next a e hx => exact ⟨a, e, hx, h⟩
    · cases h
  · rintro ⟨a, e, hx, hk⟩
    rw [hx]
    exact hk

theorem bind_of_ok {x : Reader α} {k : α → Reader β} {c d : Cursor} {a : α}
    (h : x c = .ok a d) : (x >>= k) c = k a d := by
  simp only [Bind.bind, EStateM.bind, h]

theorem throw_bind (e : Error) (k : α → Reader β) : (throw e >>= k) = throw e := by
  funext c
  rfl

theorem ite_bind (p : Prop) [Decidable p] (x y : Reader α) (k : α → Reader β) :
    ((if p then x else y) >>= k) = if p then x >>= k else y >>= k := by
  split <;> rfl

/-- The reader yields the next byte and takes nothing. -/
def Peeks (x : Reader UInt8) : Prop :=
  ∀ c next d, x c = .ok next d ↔ d = c ∧ c.rest.head? = some next

theorem peeks_peek : Reader.peek.Peeks := by
  rintro ⟨rest, position, depth⟩ next d
  cases rest with
  | nil => simp [Reader.peek]
  | cons first rest => simp [Reader.peek, eq_comm, and_comm]

theorem Peeks.mapError {x : Reader UInt8} (hx : x.Peeks) (f : Error → Error) :
    (Reader.mapError f x).Peeks := by
  intro c next d
  rw [← hx c next d, Reader.mapError]
  cases x c <;> simp

/-- Counting the bytes that are left does nothing where there are enough. -/
theorem need_of_le {n : Nat} {c : Cursor} (h : n ≤ c.rest.length) : need n c = .ok () c := by
  have hlength : (c.rest.take n).length = n := by
    rw [List.length_take]
    omega
  rw [need, if_pos hlength]

/-! ### Bytes that come next -/

/-- Where the bytes come next, the reader takes exactly them and yields `a`. -/
def Reads (reader : Reader α) (depth : Nat) (bytes : List UInt8) (a : α) : Prop :=
  ∀ rest position, reader ⟨bytes ++ rest, position, depth⟩ =
    .ok a ⟨rest, position + bytes.length, depth⟩

namespace Reads

/-- A reader takes byte strings apart in one way. -/
theorem unique {x : Reader α} {u u' rest rest' : List UInt8} {a a' : α}
    (h : x.Reads depth u a) (h' : x.Reads depth u' a') (heq : u ++ rest = u' ++ rest') :
    a = a' ∧ rest = rest' := by
  have hread := h rest 0
  rw [heq, h' rest' 0] at hread
  obtain ⟨hvalue, hcursor⟩ := EStateM.Result.ok.inj hread
  exact ⟨hvalue.symm, (congrArg Cursor.rest hcursor).symm⟩

theorem pure (a : α) : (Pure.pure a : Reader α).Reads depth [] a := fun _ _ => rfl

theorem bind {x : Reader α} {k : α → Reader β} {u v : List UInt8} {a : α} {b : β}
    (hx : x.Reads depth u a) (hk : (k a).Reads depth v b) :
    (x >>= k).Reads depth (u ++ v) b := by
  intro rest position
  rw [List.append_assoc, bind_of_ok (hx _ _), hk, List.length_append, Nat.add_assoc]

/-- A last step that takes nothing. -/
theorem bind_nil {x : Reader α} {k : α → Reader β} {u : List UInt8} {a : α} {b : β}
    (hx : x.Reads depth u a) (hk : (k a).Reads depth [] b) : (x >>= k).Reads depth u b := by
  have h := hx.bind hk
  rwa [List.append_nil] at h

/-- A first step that takes nothing. -/
theorem nil_bind {x : Reader α} {k : α → Reader β} {v : List UInt8} {a : α} {b : β}
    (hx : x.Reads depth [] a) (hk : (k a).Reads depth v b) : (x >>= k).Reads depth v b :=
  hx.bind hk

theorem map {x : Reader α} {u : List UInt8} {a : α} (f : α → β) (hx : x.Reads depth u a) :
    (f <$> x).Reads depth u (f a) := by
  intro rest position
  simp only [Functor.map, EStateM.map, hx rest position]

theorem byte (b : UInt8) : Reader.byte.Reads depth [b] b := fun _ _ => rfl

theorem octets {n : Nat} (bytes : Octets n) :
    (Reader.octets n).Reads depth bytes.toList bytes := by
  intro rest position
  have htake : (bytes.toList ++ rest).take n = bytes.toList := by
    rw [List.take_append_of_le_length (by simp), List.take_of_length_le (by simp)]
  have hdrop : (bytes.toList ++ rest).drop n = rest := by
    rw [List.drop_append_of_le_length (by simp), List.drop_of_length_le (by simp), List.nil_append]
  simp only [Reader.octets, Cursor.advance, htake, hdrop, Octets.length_toList]
  rfl

theorem take (bytes : List UInt8) : (Reader.take bytes.length).Reads depth bytes bytes :=
  (octets ⟨bytes, rfl⟩).bind_nil (pure _)

theorem number {width n : Nat} (h : n < Nat.pow 256 width) :
    (Reader.number width).Reads depth (BigEndian.ofNat width n) n := by
  have hread : (Reader.octets width).Reads depth (BigEndian.ofNat width n) ⟨_, _⟩ :=
    octets ⟨BigEndian.ofNat width n, BigEndian.length_ofNat width n⟩
  refine hread.bind_nil ?_
  rw [BigEndian.toNat_ofNat, Nat.mod_eq_of_lt h]
  exact pure n

theorem lift (a : α) : (Reader.lift (.ok a)).Reads depth [] a := fun _ _ => rfl

theorem mapError {x : Reader α} {u : List UInt8} {a : α} (f : Error → Error)
    (hx : x.Reads depth u a) : (Reader.mapError f x).Reads depth u a := by
  intro rest position
  simp only [Reader.mapError, hx rest position]

theorem checkWidth {kind : Kind} {length : Option Nat} {width : Nat}
    (h : ∀ n, length = some n → n = width) :
    (Reader.checkWidth kind length width).Reads depth [] () := by
  cases length with
  | none => exact pure ()
  | some n =>
    rw [Reader.checkWidth, if_pos (h n rfl)]
    exact pure ()

/-- A step that looks at the next byte, in front of what takes it. -/
theorem peeks_bind {x : Reader UInt8} {k : UInt8 → Reader β} {first : UInt8} {rest : List UInt8}
    {b : β} (hx : x.Peeks) (hk : (k first).Reads depth (first :: rest) b) :
    (x >>= k).Reads depth (first :: rest) b := by
  intro more position
  rw [bind_of_ok ((hx _ _ _).2 ⟨rfl, rfl⟩), hk]

/-- A step that only counts the bytes that are left, in front of what takes them. -/
theorem need_bind {k : Unit → Reader β} {n : Nat} {bytes : List UInt8} {b : β}
    (hn : n ≤ bytes.length) (hk : (k ()).Reads depth bytes b) :
    (Reader.need n >>= k).Reads depth bytes b := by
  intro rest position
  have hleft : n ≤ (bytes ++ rest).length := by
    rw [List.length_append]
    omega
  rw [bind_of_ok (need_of_le (c := ⟨bytes ++ rest, position, depth⟩) hleft), hk]

theorem nested {x : Reader α} {limit : Nat} {u : List UInt8} {a : α} (h : depth < limit)
    (hx : x.Reads (depth + 1) u a) : (Reader.nested limit x).Reads depth u a := by
  intro rest position
  simp only [Reader.nested, if_neg (Nat.not_le.2 h), hx rest position, Nat.add_sub_cancel]

end Reads

/-! ### Bytes that were taken -/

/-- Whenever the reader succeeds, the bytes that it took and the value satisfy `P`. -/
def Yields (reader : Reader α) (depth : Nat) (P : List UInt8 → α → Prop) : Prop :=
  ∀ c a d, c.depth = depth → reader c = .ok a d →
    ∃ taken, c.rest = taken ++ d.rest ∧ d.position = c.position + taken.length ∧
      d.depth = depth ∧ P taken a

namespace Yields

variable {P : List UInt8 → α → Prop} {Q : List UInt8 → β → Prop}

theorem mono {x : Reader α} {P' : List UInt8 → α → Prop} (hx : x.Yields depth P)
    (h : ∀ taken a, P taken a → P' taken a) : x.Yields depth P' := by
  intro c a d hc hok
  obtain ⟨taken, hrest, hpos, hdepth, hP⟩ := hx c a d hc hok
  exact ⟨taken, hrest, hpos, hdepth, h taken a hP⟩

theorem pure {a : α} (h : P [] a) : (Pure.pure a : Reader α).Yields depth P := by
  intro c b d hc hok
  cases hok
  exact ⟨[], rfl, rfl, hc, h⟩

theorem throw (e : Error) : (MonadExcept.throw e : Reader α).Yields depth P := by
  intro c a d _ hok
  cases hok

/-- What the second step takes stands behind what the first one took. -/
theorem bind {x : Reader α} {k : α → Reader β} (hx : x.Yields depth P)
    (hk : ∀ u a, P u a → (k a).Yields depth fun v b => Q (u ++ v) b) :
    (x >>= k).Yields depth Q := by
  intro c b d hc hok
  obtain ⟨a, e, hxe, hke⟩ := bind_eq_ok_iff.1 hok
  obtain ⟨u, hrest, hpos, hdepth, hP⟩ := hx c a e hc hxe
  obtain ⟨v, hrest', hpos', hdepth', hQ⟩ := hk u a hP e b d hdepth hke
  refine ⟨u ++ v, ?_, ?_, hdepth', hQ⟩
  · rw [hrest, hrest', List.append_assoc]
  · rw [hpos', hpos, List.length_append, Nat.add_assoc]

/-- A first step that takes nothing. -/
theorem nil_bind {x : Reader α} {k : α → Reader β} {R : α → Prop}
    (hx : x.Yields depth fun taken a => taken = [] ∧ R a)
    (hk : ∀ a, R a → (k a).Yields depth Q) : (x >>= k).Yields depth Q := by
  refine hx.bind fun u a h => ?_
  obtain ⟨rfl, hR⟩ := h
  exact hk a hR

theorem map {x : Reader α} {f : α → β} (hx : x.Yields depth fun taken a => Q taken (f a)) :
    (f <$> x).Yields depth Q := by
  intro c b d hc hok
  simp only [Functor.map, EStateM.map] at hok
  split at hok
  · next a e hx' =>
    cases hok
    exact hx c a d hc hx'
  · cases hok

theorem byte : Reader.byte.Yields depth fun taken b => taken = [b] := by
  rintro ⟨rest, position, _⟩ b d rfl hok
  cases rest with
  | nil => cases hok
  | cons first rest =>
    cases hok
    exact ⟨[b], rfl, rfl, rfl, rfl⟩

theorem octets (n : Nat) :
    (Reader.octets n).Yields depth fun taken bytes => taken = bytes.toList := by
  rintro ⟨rest, position, _⟩ bytes d rfl hok
  simp only [Reader.octets] at hok
  split at hok
  · next h =>
    cases hok
    exact ⟨rest.take n, (List.take_append_drop n rest).symm, by simp only [Cursor.advance, h],
      rfl, rfl⟩
  · cases hok

theorem take (n : Nat) :
    (Reader.take n).Yields depth fun taken bytes => taken = bytes ∧ bytes.length = n := by
  refine (octets n).bind ?_
  rintro _ bytes rfl
  exact pure ⟨List.append_nil _, bytes.length_toList⟩

theorem number (width : Nat) : (Reader.number width).Yields depth fun taken n =>
    taken = BigEndian.ofNat width n ∧ n < Nat.pow 256 width := by
  refine (octets width).bind ?_
  rintro _ bytes rfl
  refine pure ⟨?_, ?_⟩
  · rw [List.append_nil, BigEndian.ofNat_toNat_of_length bytes.length_toList]
  · have h := BigEndian.toNat_lt bytes.toList
    rwa [bytes.length_toList] at h

theorem get : (MonadState.get : Reader Cursor).Yields depth fun taken _ => taken = [] ∧ True := by
  intro c a d hc hok
  cases hok
  exact ⟨[], rfl, rfl, hc, rfl, trivial⟩

theorem need (n : Nat) : (Reader.need n).Yields depth fun taken _ => taken = [] ∧ True := by
  rintro ⟨rest, position, _⟩ b d rfl hok
  simp only [Reader.need] at hok
  split at hok
  · cases hok
    exact ⟨[], rfl, rfl, rfl, rfl, trivial⟩
  · cases hok

theorem lift (result : Except Error α) :
    (Reader.lift result).Yields depth fun taken a => taken = [] ∧ result = .ok a := by
  intro c a d hc hok
  cases result with
  | ok b =>
    cases hok
    exact ⟨[], rfl, rfl, hc, rfl, rfl⟩
  | error e => cases hok

theorem mapError {x : Reader α} (f : Error → Error) (hx : x.Yields depth P) :
    (Reader.mapError f x).Yields depth P := by
  intro c a d hc hok
  simp only [Reader.mapError] at hok
  split at hok
  · next b e hx' =>
    cases hok
    exact hx c a d hc hx'
  · cases hok

theorem checkWidth (kind : Kind) (length : Option Nat) (width : Nat) :
    (Reader.checkWidth kind length width).Yields depth fun taken _ =>
      taken = [] ∧ ∀ n, length = some n → n = width := by
  cases length with
  | none => exact pure ⟨rfl, fun n h => by cases h⟩
  | some n =>
    simp only [Reader.checkWidth]
    split
    · next h => exact pure ⟨rfl, fun m hm => by cases hm; exact h⟩
    · exact throw _

theorem nested {x : Reader α} {limit : Nat} (hx : depth < limit → x.Yields (depth + 1) P) :
    (Reader.nested limit x).Yields depth fun taken a => depth < limit ∧ P taken a := by
  rintro ⟨rest, position, _⟩ a d rfl hok
  simp only [Reader.nested] at hok
  split at hok
  · cases hok
  · next h =>
    have hlt := Nat.not_le.1 h
    split at hok
    · next b e hb =>
      cases hok
      obtain ⟨taken, hrest, hpos, hdepth, hP⟩ := hx hlt _ a e rfl hb
      exact ⟨taken, hrest, hpos, by simp only [hdepth, Nat.add_sub_cancel], hlt, hP⟩
    · cases hok

end Yields

/-! ### Bytes that were looked at -/

/-- Whenever the reader succeeds and `next` came next, the bytes that it took and the value satisfy
`P`. -/
def YieldsAt (reader : Reader α) (next : UInt8) (depth : Nat) (P : List UInt8 → α → Prop) : Prop :=
  ∀ c a d, c.depth = depth → c.rest.head? = some next → reader c = .ok a d →
    ∃ taken, c.rest = taken ++ d.rest ∧ d.position = c.position + taken.length ∧
      d.depth = depth ∧ P taken a

section YieldsAt

variable {P : List UInt8 → α → Prop} {Q : List UInt8 → β → Prop} {next : UInt8}

/-- Where a byte comes next, it is the first one taken. -/
theorem YieldsAt.of_yields {x : Reader α}
    (hx : x.Yields depth fun taken a => (∀ first ∈ taken.head?, first = next) → P taken a) :
    x.YieldsAt next depth P := by
  intro c a d hc hnext hok
  obtain ⟨taken, hrest, hpos, hdepth, hP⟩ := hx c a d hc hok
  refine ⟨taken, hrest, hpos, hdepth, hP fun first hfirst => ?_⟩
  cases taken with
  | nil => cases hfirst
  | cons head tail =>
    rw [hrest] at hnext
    cases hfirst
    exact Option.some.inj hnext

theorem YieldsAt.bind {x : Reader α} {k : α → Reader β} (hx : x.YieldsAt next depth P)
    (hk : ∀ u a, P u a → (k a).Yields depth fun v b => Q (u ++ v) b) :
    (x >>= k).YieldsAt next depth Q := by
  intro c b d hc hnext hok
  obtain ⟨a, e, hxe, hke⟩ := bind_eq_ok_iff.1 hok
  obtain ⟨u, hrest, hpos, hdepth, hP⟩ := hx c a e hc hnext hxe
  obtain ⟨v, hrest', hpos', hdepth', hQ⟩ := hk u a hP e b d hdepth hke
  refine ⟨u ++ v, ?_, ?_, hdepth', hQ⟩
  · rw [hrest, hrest', List.append_assoc]
  · rw [hpos', hpos, List.length_append, Nat.add_assoc]

/-- A step that looks at the next byte tells what comes next. -/
theorem Yields.peeks_bind {x : Reader UInt8} {k : UInt8 → Reader β} (hx : x.Peeks)
    (hk : ∀ next, (k next).YieldsAt next depth Q) : (x >>= k).Yields depth Q := by
  intro c b d hc hok
  obtain ⟨next, e, hpeek, hk'⟩ := bind_eq_ok_iff.1 hok
  obtain ⟨rfl, hnext⟩ := (hx _ _ _).1 hpeek
  exact hk next e b d hc hnext hk'

end YieldsAt

end Reader

end FieldWire
