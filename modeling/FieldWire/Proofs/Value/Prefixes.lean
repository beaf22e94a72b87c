import FieldWire.Proofs.Amount.Basic
import FieldWire.Proofs.Value.Loops
import FieldWire.Proofs.Value.WriteBack

/-!
# Values are told by the bytes that they take

What a reader makes of a byte string could depend on bytes behind those that it takes: it can look
at the next byte, count the bytes that are left, or end where none are left. A reader is
*determined* (`Reader.IsDetermined`) if none of this shows. Wherever it succeeds, the bytes that it
took give the same value whatever follows them and however many bytes were read before, and every
shorter beginning of these bytes fails.

Both halves come from one law. A reader *foretells* another one (`Reader.Foretells`) if what the
first takes with success anywhere, the second takes with the same result everywhere. The law is
closed under sequencing (`Reader.Foretells.bind`) and holds of every step but a look at the next
byte, which needs something behind it that takes this byte (`Reader.Foretells.peeks_bind`). A reader
that foretells itself cannot also succeed on less (`Reader.isDetermined_of_foretells`), because
bytes are taken apart in one way.

The check of a declared length counts the bytes that are left, so it does see what follows; but the
value must fill the length exactly, and then its own bytes pass the check
(`Value.foretells_readOfFieldWith`). The loops of objects and arrays are given as many turns as
bytes are left. They foretell the loops without such a number (`Value.foretells_nested`), by
induction on it, and those are what values are read with (`Value.read_eq`).

The main theorem is **`Value.isDetermined_read`**. It asks nothing of the registry. The object that
fills a byte string is left out for a reason: it ends where no bytes are left, so it is not
determined.
-/

namespace FieldWire

namespace Reader

variable {α β : Type} {depth : Nat}

/-- What the first reader takes, wherever it succeeds, the second one takes with the same result,
whatever follows. -/
def Foretells (x y : Reader α) (depth : Nat) : Prop :=
  x.Yields depth fun taken a => y.Reads depth taken a

/-- Wherever the reader succeeds, the bytes that it took give the same value whatever follows them
and however many were read before, and every shorter beginning of them fails. -/
def IsDetermined (x : Reader α) : Prop :=
  ∀ c a d, x c = .ok a d → ∃ taken,
    c.rest = taken ++ d.rest ∧ d.position = c.position + taken.length ∧ d.depth = c.depth ∧
      x.Reads c.depth taken a ∧
        ∀ short position, short <+: taken → short ≠ taken →
          ∃ e stop, x ⟨short, position, c.depth⟩ = .error e stop

/-- A reader that foretells itself at every depth is determined. -/
theorem isDetermined_of_foretells {x : Reader α} (h : ∀ depth, x.Foretells x depth) :
    x.IsDetermined := by
  intro c a d hok
  obtain ⟨taken, hrest, hposition, hdepth, hreads⟩ := h c.depth c a d rfl hok
  refine ⟨taken, hrest, hposition, hdepth, hreads, ?_⟩
  rintro short position ⟨missing, rfl⟩ hshort
  cases hrun : x ⟨short, position, c.depth⟩ with
  | error e stop => exact ⟨e, stop, rfl⟩
  | ok b stop =>
    -- a success on less would take the same bytes apart in a second way
    obtain ⟨less, hless, -, -, hreads'⟩ := h c.depth ⟨short, position, c.depth⟩ b stop rfl hrun
    have heq : (short ++ missing) ++ [] = less ++ (stop.rest ++ missing) := by
      rw [List.append_nil, ← List.append_assoc]
      exact congrArg (· ++ missing) hless
    obtain ⟨-, hnil⟩ := hreads.unique hreads' heq
    have hmissing := (List.append_eq_nil_iff.1 hnil.symm).2
    rw [hmissing, List.append_nil] at hshort
    exact absurd rfl hshort

namespace Foretells

theorem pure (a : α) : (Pure.pure a : Reader α).Foretells (Pure.pure a) depth :=
  Yields.pure (.pure a)

theorem throw (e : Error) (y : Reader α) :
    (MonadExcept.throw e : Reader α).Foretells y depth :=
  Yields.throw e

theorem bind {x y : Reader α} {k l : α → Reader β} (h : x.Foretells y depth)
    (hk : ∀ a, (k a).Foretells (l a) depth) : (x >>= k).Foretells (y >>= l) depth :=
  Yields.bind h fun _ a hx => (hk a).mono fun _ _ hl => hx.bind hl

theorem byte : Reader.byte.Foretells Reader.byte depth :=
  Yields.byte.mono <| by
    rintro _ b rfl
    exact .byte b

theorem octets (n : Nat) : (Reader.octets n).Foretells (Reader.octets n) depth :=
  (Yields.octets n).mono <| by
    rintro _ bytes rfl
    exact .octets bytes

theorem take (n : Nat) : (Reader.take n).Foretells (Reader.take n) depth :=
  (octets n).bind fun _ => .pure _

theorem number (width : Nat) : (Reader.number width).Foretells (Reader.number width) depth :=
  (octets width).bind fun _ => .pure _

theorem lift (result : Except Error α) :
    (Reader.lift result).Foretells (Reader.lift result) depth :=
  (Yields.lift result).mono <| by
    rintro _ a ⟨rfl, rfl⟩
    exact .lift a

theorem checkWidth (kind : Kind) (length : Option Nat) (width : Nat) :
    (Reader.checkWidth kind length width).Foretells (Reader.checkWidth kind length width) depth :=
  (Yields.checkWidth kind length width).mono <| by
    rintro _ _ ⟨rfl, h⟩
    exact .checkWidth h

theorem nested {x y : Reader α} (limit : Nat) (h : x.Foretells y (depth + 1)) :
    (Reader.nested limit x).Foretells (Reader.nested limit y) depth :=
  (Yields.nested fun _ => h).mono fun _ _ hx => hx.2.nested hx.1

/-- A look at the next byte, in front of what takes it. -/
theorem peeks_bind {x : Reader UInt8} {k l : UInt8 → Reader β} (hx : x.Peeks)
    (hk : ∀ next, (k next).Yields depth fun taken b => taken ≠ [] ∧ (l next).Reads depth taken b) :
    (x >>= k).Foretells (x >>= l) depth := by
  refine Yields.peeks_bind hx fun next => .of_yields ((hk next).mono ?_)
  rintro taken b ⟨hne, hreads⟩ hfirst
  obtain ⟨first, rest, rfl⟩ := List.exists_cons_of_ne_nil hne
  obtain rfl := hfirst first rfl
  exact .peeks_bind hx hreads

/-- What begins with a word of some width takes bytes. -/
theorem number_bind {width : Nat} (hwidth : 0 < width) {k l : Nat → Reader β}
    (hk : ∀ n, (k n).Foretells (l n) depth) :
    (Reader.number width >>= k).Yields depth fun taken b =>
      taken ≠ [] ∧ (Reader.number width >>= l).Reads depth taken b := by
  refine (Yields.number width).bind ?_
  rintro _ n ⟨rfl, hn⟩
  refine (hk n).mono fun behind b hreads => ⟨fun hnil => ?_, (Reads.number hn).bind hreads⟩
  have hlength := congrArg List.length (List.append_eq_nil_iff.1 hnil).1
  rw [BigEndian.length_ofNat, List.length_nil] at hlength
  omega

end Foretells

end Reader

open Reader (Foretells)

variable {depth : Nat}

/-! ### Headers and lengths -/

theorem Header.foretells_read : Header.read.Foretells Header.read depth :=
  yields_read.mono <| by
    rintro _ h ⟨rfl, hrange⟩
    exact reads_read hrange

theorem Registry.foretells_readField (registry : Registry) :
    registry.readField.Foretells registry.readField depth :=
  Header.foretells_read.bind fun _ => .lift _

theorem LengthPrefix.foretells_read : LengthPrefix.read.Foretells LengthPrefix.read depth := by
  refine Foretells.byte.bind fun first => ?_
  dsimp only
  split_ifs
  · exact .pure _
  · exact Foretells.byte.bind fun second => .pure _
  · exact Foretells.byte.bind fun second => Foretells.byte.bind fun third => .pure _
  · exact .throw _ _

/-! ### Leaves -/

theorem Currency.foretells_readChecked :
    Currency.readChecked.Foretells Currency.readChecked depth :=
  (Foretells.octets 20).bind fun _ => .lift _

theorem Currency.foretells_read (length : Option Nat) :
    (Currency.read length).Foretells (Currency.read length) depth :=
  (Foretells.checkWidth _ _ _).bind fun _ => foretells_readChecked

theorem Issue.foretells_read (length : Option Nat) :
    (Issue.read length).Foretells (Issue.read length) depth := by
  refine Currency.foretells_readChecked.bind fun currency => ?_
  split
  · exact (Foretells.checkWidth _ _ _).bind fun _ => .pure _
  · exact (Foretells.checkWidth _ _ _).bind fun _ =>
      (Foretells.octets 20).bind fun issuer => .pure _

/-- The form of an amount is told by its first byte, which stays until the word is taken. -/
theorem Amount.foretells_read (length : Option Nat) :
    (Amount.read length).Foretells (Amount.read length) depth := by
  refine .peeks_bind Reader.peeks_peek fun first => ?_
  refine (Reader.Yields.checkWidth _ _ _).nil_bind fun _ hwidth => ?_
  refine (Foretells.number_bind (show 0 < 8 by decide) fun bits => ?_).mono fun _ _ h =>
    ⟨h.1, (Reader.Reads.checkWidth hwidth).nil_bind h.2⟩
  split
  · exact .lift _
  · refine (Foretells.lift _).bind fun value => ?_
    refine Currency.foretells_readChecked.bind fun currency => ?_
    split
    · exact .throw _ _
    · exact (Foretells.octets 20).bind fun issuer => .pure _

theorem PathSet.foretells_read : PathSet.read.Foretells PathSet.read depth :=
  yields_read.mono fun _ _ h => reads_read h.2 h.1

namespace Value

private theorem foretells_readWord (kind : Kind) (width : Nat) (length : Option Nat) :
    (readWord kind width length).Foretells (readWord kind width length) depth :=
  (Foretells.checkWidth _ _ _).bind fun _ => .number width

private theorem foretells_readOctets (kind : Kind) (width : Nat) (length : Option Nat) :
    (readOctets kind width length).Foretells (readOctets kind width length) depth :=
  (Foretells.checkWidth _ _ _).bind fun _ => .octets width

private theorem foretells_readBlob (length : Option Nat) :
    (readBlob length).Foretells (readBlob length) depth := by
  cases length with
  | none => exact .throw _ _
  | some n => exact .take n

private theorem foretells_readHashes (count : Nat) (taken : List (Octets 32)) :
    (readHashes count taken).Foretells (readHashes count taken) depth := by
  induction count generalizing taken with
  | zero => exact .pure _
  | succ count ih => exact (Foretells.octets 32).bind fun hash => ih (hash :: taken)

private theorem foretells_readVector (length : Option Nat) :
    (readVector length).Foretells (readVector length) depth := by
  cases length with
  | none => exact .throw _ _
  | some n =>
    rw [readVector]
    split
    · exact foretells_readHashes _ _
    · exact .throw _ _

/-- Reading a value foretells what reading objects and arrays does. -/
theorem foretells_readWith {objects objects' : Reader Object}
    {arrays arrays' : Reader (List Element)} (hobjects : objects.Foretells objects' depth)
    (harrays : arrays.Foretells arrays' depth) (kind : Kind) (length : Option Nat) :
    (readWith objects arrays kind length).Foretells (readWith objects' arrays' kind length)
      depth := by
  cases kind with
  | uint8 | uint16 | uint32 | uint64 =>
    exact (foretells_readWord _ _ _).bind fun n => .pure _
  | hash128 | hash160 | hash256 | account =>
    exact (foretells_readOctets _ _ _).bind fun bytes => .pure _
  | blob => exact (foretells_readBlob _).bind fun bytes => .pure _
  | amount => exact (Amount.foretells_read _).bind fun amount => .pure _
  | currency => exact (Currency.foretells_read _).bind fun currency => .pure _
  | issue => exact (Issue.foretells_read _).bind fun issue => .pure _
  | vector256 => exact (foretells_readVector _).bind fun hashes => .pure _
  | pathSet => exact PathSet.foretells_read.bind fun paths => .pure _
  | object => exact hobjects.bind fun fields => .pure _
  | array => exact harrays.bind fun elements => .pure _

/-! ### Fields -/

/-- A value behind a length fills it, so its own bytes pass the check that so many are left. -/
theorem foretells_readOfFieldWith {value value' : Kind → Option Nat → Reader Value} {f : Field}
    (hvalue : ∀ length, (value f.kind length).Foretells (value' f.kind length) depth) :
    (readOfFieldWith value f).Foretells (readOfFieldWith value' f) depth := by
  cases hlength : f.variableLength with
  | false =>
    simp only [readOfFieldWith, hlength, Bool.false_eq_true, if_false]
    exact hvalue none
  | true =>
    refine (yields_readOfFieldWith_of_length hlength LengthPrefix.foretells_read fun n =>
      hvalue (some n)).mono ?_
    rintro _ v ⟨head, inner, rfl, hhead, hinner⟩
    exact reads_readOfFieldWith_of_length hlength hhead hinner

/-! ### Objects and arrays -/

variable (registry : Registry) (limit : Nat)

private theorem foretells_next {σ α : Type} {loop loop' : σ → Reader α}
    (h : ∀ s, (loop s).Foretells (loop' s) depth) :
    ∀ turn : Reader.Turn σ α, (Reader.next loop turn).Foretells (Reader.next loop' turn) depth
  | .again s => h s
  | .leave a => .pure a

private theorem foretells_fieldTurnWith {value value' : Field → Reader Value}
    (hvalue : ∀ f, (value f).Foretells (value' f) depth) (taken : Object) :
    (fieldTurnWith registry value true taken).Foretells
      (fieldTurnWith registry value' true taken) depth := by
  -- an inner object needs its end marker, so the bytes left are not looked at
  refine registry.foretells_readField.bind fun f => ?_
  split
  · exact .pure _
  · split
    · exact .throw _ _
    · exact (hvalue f).bind fun v => .pure _

private theorem foretells_elementTurnWith {body body' : Reader Object}
    (hbody : body.Foretells body' depth) (taken : List Element) :
    (elementTurnWith registry body taken).Foretells (elementTurnWith registry body' taken)
      depth := by
  refine registry.foretells_readField.bind fun f => ?_
  split
  · exact .pure _
  · split
    · exact hbody.bind fun fields => .pure _
    · exact .throw _ _

/-- With any number of turns, objects and arrays foretell the loops without such a number. -/
theorem foretells_nested (fuel : Nat) : ∀ depth,
    (∀ taken, (readFields registry limit fuel true taken).Foretells
      (fields registry limit true taken) depth) ∧
    ∀ taken, (readElements registry limit fuel taken).Foretells
      (elements registry limit taken) depth := by
  induction fuel with
  | zero =>
    intro depth
    constructor
    · intro taken
      rw [readFields]
      exact .throw _ _
    · intro taken
      rw [readElements]
      exact .throw _ _
  | succ fuel ih =>
    intro depth
    obtain ⟨hfields, helements⟩ := ih depth
    obtain ⟨hinner, hinside⟩ := ih (depth + 1)
    have hobject := (hinner []).nested limit
    have harray := (hinside []).nested limit
    constructor
    · intro taken
      rw [readFields_eq_unroll, (isNest_fields registry limit).objects_eq]
      refine (foretells_fieldTurnWith registry (fun f => ?_) taken).bind (foretells_next hfields)
      exact foretells_readOfFieldWith fun length => foretells_readWith hobject harray f.kind length
    · intro taken
      rw [readElements_eq_unroll, (isNest_fields registry limit).arrays_eq]
      exact (foretells_elementTurnWith registry hobject taken).bind (foretells_next helements)

/-- A loop starts with some number of turns. -/
private theorem foretells_unfueled {σ α : Type} {loop : Nat → σ → Reader α} {y : Reader α} {s : σ}
    (h : ∀ fuel, (loop fuel s).Foretells y depth) : (Reader.unfueled loop s).Foretells y depth :=
  fun c a d hc hok => h (c.remaining + 1) c a d hc hok

theorem foretells_read (kind : Kind) (length : Option Nat) :
    (read registry limit kind length).Foretells (read registry limit kind length) depth := by
  have hobjects : (fields registry limit true []).Foretells (fields registry limit true [])
      (depth + 1) := foretells_unfueled fun fuel => (foretells_nested registry limit fuel _).1 []
  have harrays : (elements registry limit []).Foretells (elements registry limit [])
      (depth + 1) := foretells_unfueled fun fuel => (foretells_nested registry limit fuel _).2 []
  rw [read_eq]
  exact foretells_readWith (hobjects.nested limit) (harrays.nested limit) kind length

/-- **Values are told by the bytes that they take.** Whatever the registry and the limit, a value of
any kind, read with any length or none, and the value of any field come out the same wherever their
bytes come next, and fewer of these bytes are refused. -/
theorem isDetermined_read :
    (∀ kind length, (read registry limit kind length).IsDetermined) ∧
      ∀ f, (readOfField registry limit f).IsDetermined :=
  ⟨fun kind length => Reader.isDetermined_of_foretells fun _ =>
      foretells_read registry limit kind length,
    fun f => Reader.isDetermined_of_foretells fun _ =>
      foretells_readOfFieldWith fun length => foretells_read registry limit f.kind length⟩

end Value

end FieldWire
