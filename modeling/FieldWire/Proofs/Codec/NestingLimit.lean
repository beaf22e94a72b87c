import FieldWire.Proofs.Codec.RoundTrip
import FieldWire.Proofs.Value.Nesting

/-!
# The limit on nesting

Two limits make no difference to a reader until the lower one is met, and then reading with the
lower one fails for it at once (`Reader.EqUpTo`). That is so for every registry and all bytes
(`Object.ofBytes_of_le`), because only the step down to another level looks at the limit.

For the bytes of an object that was written this tells what every limit does
(`Object.readsWithin_iff`): a limit that allows the levels of the object reads it back, and a lower
one must fail, since it can neither read so many levels nor differ from a higher one in any other
way. So no search for the place where it fails is needed. As for other laws of reading back, no
element may be wrapped in the field of the array end marker.
-/

namespace FieldWire

/-! ### Readers with two limits -/

namespace Reader

variable {α β : Type} {limit limit' : Nat} {x y : Reader α}

/-- The readers do the same, unless the first one fails for the limit on nesting. -/
def EqUpTo (limit : Nat) (x y : Reader α) : Prop :=
  ∀ c, (∃ d, x c = .error (.nestingTooDeep limit) d) ∨ y c = x c

namespace EqUpTo

theorem refl (x : Reader α) : EqUpTo limit x x := fun _ => .inr rfl

theorem bind {k l : α → Reader β} (hx : EqUpTo limit x y) (hk : ∀ a, EqUpTo limit (k a) (l a)) :
    EqUpTo limit (x >>= k) (y >>= l) := by
  intro c
  simp only [Bind.bind, EStateM.bind]
  obtain ⟨d, hd⟩ | hsame := hx c
  · rw [hd]
    exact .inl ⟨d, rfl⟩
  · rw [hsame]
    cases x c with
    | ok a d => exact hk a d
    | error e d => exact .inr rfl

/-- A step down that the lower limit allows is allowed by the higher one. -/
theorem nested (hle : limit ≤ limit') (h : EqUpTo limit x y) :
    EqUpTo limit (Reader.nested limit x) (Reader.nested limit' y) := by
  intro c
  unfold Reader.nested
  by_cases hdepth : limit ≤ c.depth
  · rw [if_pos hdepth]
    exact .inl ⟨c, rfl⟩
  · rw [if_neg hdepth, if_neg (by omega)]
    obtain ⟨d, hd⟩ | hsame := h { c with depth := c.depth + 1 }
    · rw [hd]
      exact .inl ⟨_, rfl⟩
    · rw [hsame]
      exact .inr rfl

end EqUpTo

end Reader

open Reader (EqUpTo)

namespace Value

variable {limit limit' : Nat}

private theorem eqUpTo_readWith {objects objects' : Reader Object}
    {arrays arrays' : Reader (List Element)} (hobjects : EqUpTo limit objects objects')
    (harrays : EqUpTo limit arrays arrays') (kind : Kind) (length : Option Nat) :
    EqUpTo limit (readWith objects arrays kind length) (readWith objects' arrays' kind length) := by
  cases kind
  case object => exact hobjects.bind fun _ => .refl _
  case array => exact harrays.bind fun _ => .refl _
  all_goals exact .refl _

private theorem eqUpTo_readOfFieldWith {value value' : Kind → Option Nat → Reader Value}
    (hvalue : ∀ kind length, EqUpTo limit (value kind length) (value' kind length)) (f : Field) :
    EqUpTo limit (readOfFieldWith value f) (readOfFieldWith value' f) := by
  unfold readOfFieldWith
  split
  · exact .bind (.refl _) fun length => .bind (.refl _) fun _ => .bind (.refl _) fun _ =>
      (hvalue f.kind (some length)).bind fun _ => .refl _
  · exact hvalue f.kind none

/-- Objects and arrays are read alike with two limits until the lower one is met. -/
theorem eqUpTo_nested (registry : Registry) (hle : limit ≤ limit') (fuel : Nat) :
    (∀ inner taken, EqUpTo limit (readFields registry limit fuel inner taken)
      (readFields registry limit' fuel inner taken)) ∧
    ∀ taken, EqUpTo limit (readElements registry limit fuel taken)
      (readElements registry limit' fuel taken) := by
  induction fuel with
  | zero => exact ⟨fun _ _ => .refl _, fun _ => .refl _⟩
  | succ fuel ih =>
    obtain ⟨hfields, helements⟩ := ih
    have hobject := (hfields true []).nested hle
    have harray := (helements []).nested hle
    constructor
    · intro inner taken
      rw [readFields, readFields]
      refine .bind (.refl _) fun c => ?_
      split
      · exact .refl _
      · refine .bind (.refl _) fun f => ?_
        split
        · exact .refl _
        · split
          · exact .refl _
          · exact (eqUpTo_readOfFieldWith (eqUpTo_readWith hobject harray) f).bind fun v =>
              hfields inner ((f, v) :: taken)
    · intro taken
      rw [readElements, readElements]
      refine .bind (.refl _) fun f => ?_
      split
      · exact .refl _
      · split
        · exact hobject.bind fun fields => helements ((f, fields) :: taken)
        · exact .refl _

end Value

namespace Object

variable {limit limit' : Nat}

/-- What fills a byte string is read alike with two limits until the lower one is met. -/
theorem eqUpTo_readRoot (registry : Registry) (hle : limit ≤ limit') :
    EqUpTo limit (readRoot registry limit) (readRoot registry limit') :=
  .bind (.refl _) fun c => (Value.eqUpTo_nested registry hle (c.remaining + 1)).1 false []

/-- Reading with the lower limit fails for it or gives what reading with the higher limit gives. -/
theorem ofBytes_of_le (registry : Registry) (hle : limit ≤ limit') (bytes : List UInt8) :
    ofBytes registry limit bytes = .error (.nestingTooDeep limit) ∨
      ofBytes registry limit' bytes = ofBytes registry limit bytes := by
  unfold ofBytes
  obtain ⟨d, hd⟩ | hsame := eqUpTo_readRoot registry hle (.start bytes)
  · exact .inl (by rw [hd])
  · exact .inr (by rw [hsame])

/-! ### Written objects -/

/-- The object is read from the bytes within the limits that allow its levels, and reading fails for
every other limit. -/
def ReadsWithin (registry : Registry) (fields : Object) (bytes : List UInt8) : Prop :=
  ∀ limit, ofBytes registry limit bytes =
    if fields.nesting ≤ limit then .ok fields else .error (.nestingTooDeep limit)

/-- An object that is read back within some limit is read back within those that allow its levels,
and reading fails for all others. -/
theorem readsWithin_of_ofBytes {registry : Registry} {fields : Object} {bytes : List UInt8}
    (hread : ofBytes registry fields.nesting bytes = .ok fields) :
    ReadsWithin registry fields bytes := by
  intro limit
  split
  · next hle =>
    obtain hfail | hsame := ofBytes_of_le registry hle bytes
    · rw [hread] at hfail
      cases hfail
    · rw [hsame, hread]
  · next hlow =>
    obtain hfail | hsame := ofBytes_of_le registry (Nat.le_of_not_le hlow) bytes
    · exact hfail
    · -- a limit that is too low for the levels does not read them
      rw [hread] at hsame
      exact absurd (nesting_le_of_ofBytes hsame.symm) hlow

/-- **The limit on nesting is exact and monotone.** What is written for an object of a plain value
is read within exactly the limits that allow its levels, if and only if no element in it is wrapped
in the field of the array end marker. And whatever the registry and the bytes, a result that is not
a failure for the limit is the result of every higher limit. -/
theorem readsWithin_iff {context : Context} (hregistry : context.registry.Regular)
    {onlySigning : Bool} {j : Json} {fields : Object}
    (hfields : ofJson context onlySigning j = .ok fields) {bytes : List UInt8}
    (hbytes : fields.toBytes = .ok bytes) :
    (ReadsWithin context.registry fields bytes ↔ Obeys .unmarked fields) ∧
      ∀ (registry : Registry) (limit limit' : Nat) (input : List UInt8), limit ≤ limit' →
        (∀ n, ofBytes registry limit input ≠ .error (.nestingTooDeep n)) →
          ofBytes registry limit' input = ofBytes registry limit input := by
  refine ⟨⟨fun hreads => ?_, fun hunmarked => ?_⟩, fun registry limit limit' input hle hresult => ?_⟩
  · have hread := hreads fields.nesting
    rw [if_pos (Nat.le_refl _)] at hread
    exact (fits_of_ofBytes hregistry hread).2
  · exact readsWithin_of_ofBytes (ofBytes_of_toBytes hregistry (fits_of_ofJson hfields) hunmarked
      (Nat.le_refl _) hbytes)
  · exact (ofBytes_of_le registry hle input).resolve_left (hresult limit)

/-- An array with an element has two levels: a limit of two reads it, and a limit of one does not. -/
theorem readsWithin_crossed :
    ofBytes Crossed.registry 2 [0xE2, 0xF2, 0x77, 0x01, 0xAB, 0xE1, 0xF1] =
      .ok [(Crossed.itemsField,
        .array [(Crossed.memoField, [(Crossed.domainField, .blob [0xAB])])])] ∧
    ofBytes Crossed.registry 1 [0xE2, 0xF2, 0x77, 0x01, 0xAB, 0xE1, 0xF1] =
      .error (.nestingTooDeep 1) ∧
    ofBytes Crossed.registry 64 [0xE2, 0xF2, 0x77, 0x01, 0xAB, 0xE1, 0xF1] =
      ofBytes Crossed.registry 2 [0xE2, 0xF2, 0x77, 0x01, 0xAB, 0xE1, 0xF1] := by
  have hfields : ofJson Crossed.codec.context false
      (Crossed.itemsJson "Memo" (.obj [("Domain", .str "AB")])) = .ok [(Crossed.itemsField,
        .array [(Crossed.memoField, [(Crossed.domainField, .blob [0xAB])])])] := rfl
  have hbytes : toBytes [(Crossed.itemsField,
      .array [(Crossed.memoField, [(Crossed.domainField, .blob [0xAB])])])] =
        .ok [0xE2, 0xF2, 0x77, 0x01, 0xAB, 0xE1, 0xF1] := rfl
  obtain ⟨hiff, hmono⟩ := readsWithin_iff Crossed.regular hfields hbytes
  have hname : Crossed.memoField.name ≠ arrayEndName := by decide
  have hreads := hiff.2 ⟨trivial, ⟨hname, ⟨trivial, trivial, trivial⟩, trivial⟩, trivial⟩
  refine ⟨hreads 2, hreads 1, hmono Crossed.registry 2 64 _ (by decide) fun n hfail => ?_⟩
  cases (hreads 2).symm.trans hfail

/-- An element in the field of the array end marker hides from the limit: a limit of one reads the
bytes of an array with such an element, though as another object. -/
theorem not_readsWithin_crossed :
    ofJson Crossed.codec.context false (Crossed.itemsJson arrayEndName (.obj [])) =
      .ok [(Crossed.itemsField, .array [(Crossed.endField, [])])] ∧
    toBytes [(Crossed.itemsField, .array [(Crossed.endField, [])])] =
      .ok [0xE2, 0xF1, 0xE1, 0xF1] ∧
    nesting [(Crossed.itemsField, .array [(Crossed.endField, [])])] = 2 ∧
    ofBytes Crossed.registry 1 [0xE2, 0xF1, 0xE1, 0xF1] = .ok [(Crossed.itemsField, .array [])] ∧
    ¬ReadsWithin Crossed.registry [(Crossed.itemsField, .array [(Crossed.endField, [])])]
      [0xE2, 0xF1, 0xE1, 0xF1] := by
  have hread : ofBytes Crossed.registry 1 [0xE2, 0xF1, 0xE1, 0xF1] =
      .ok [(Crossed.itemsField, .array [])] := rfl
  refine ⟨rfl, rfl, by decide, hread, fun hreads => ?_⟩
  cases hread.symm.trans (hreads 1)

end Object

end FieldWire
