import FieldWire.Proofs.Value.WriteBack

/-!
# Conditions on what is read

A condition on fields with their values is *inductive* if it holds of leaves and carries over to
objects and arrays from what is in them (`Value.IsInductive`). Every inductive condition holds of
what is read, from any registry (`Value.IsInductive.yields_readOfField`). The condition may look at
the depth where the field stands, which the limit bounds, and of the field of a leaf it may use that
bytes and hashes in any number stand behind their length, for otherwise the reader refuses them.
The last is itself inductive (`Value.isInductive_measured`), so it holds at every level of a value
that was read (`Value.yields_measured`).
-/

namespace FieldWire

namespace Value

/-- The condition on fields with their values, at the depth where they stand, holds of leaves, and
of objects and arrays if it holds of what is in them. -/
structure IsInductive (limit : Nat) (P : Nat → Field → Value → Prop) : Prop where
  /-- It holds of leaves, if bytes stand behind their length. -/
  leaf : ∀ {depth : Nat} {f : Field} {v : Value}, depth ≤ limit → f.IsMeasured → v.IsLeaf →
    P depth f v
  /-- It carries over to an object from its fields. -/
  object : ∀ {depth : Nat} {f : Field} {fields : Object}, depth < limit → f.kind = .object →
    (∀ p ∈ fields, P (depth + 1) p.1 p.2) → P depth f (.object fields)
  /-- It carries over to an array from the fields of its elements. -/
  array : ∀ {depth : Nat} {f : Field} {elements : List Element}, depth < limit →
    f.kind = .array → (∀ e ∈ elements, depth + 1 < limit ∧ ∀ p ∈ e.2, P (depth + 2) p.1 p.2) →
      P depth f (.array elements)

variable {registry : Registry} {limit depth : Nat} {P : Nat → Field → Value → Prop}

/-! ### Leaves -/

/-- A leaf is read, if bytes in its field stand behind their length. -/
private theorem yields_measured_leaf {f : Field} (hobject : f.kind ≠ .object)
    (harray : f.kind ≠ .array) {length : Option Nat}
    (hlength : f.variableLength = false → length = none) (objects : Reader Object)
    (arrays : Reader (List Element)) :
    (readWith objects arrays f.kind length).Yields depth fun _ v => f.IsMeasured ∧ v.IsLeaf := by
  by_cases hmeasured : f.IsMeasured
  · refine (yields_leaf hobject harray length objects arrays).mono ?_
    rintro _ v ⟨hkind, -, -⟩
    exact ⟨hmeasured, hkind ▸ hobject, hkind ▸ harray⟩
  · obtain ⟨hkind, hfixed⟩ := Classical.not_imp.1 hmeasured
    rw [hlength (Bool.eq_false_iff.2 hfixed)]
    rcases hkind with hkind | hkind <;> rw [hkind]
    · exact Reader.Yields.bind (P := fun _ _ => False) (.throw _) nofun
    · exact Reader.Yields.bind (P := fun _ _ => False) (.throw _) nofun

/-! ### Objects and arrays -/

/-- The condition holds of the fields of elements, in an array that was opened at the depth. -/
def HoldsInside (limit : Nat) (P : Nat → Field → Value → Prop) (depth : Nat)
    (elements : List Element) : Prop :=
  ∀ e ∈ elements, depth < limit ∧ ∀ p ∈ e.2, P (depth + 1) p.1 p.2

namespace IsInductive

variable (hP : IsInductive limit P)
include hP

/-- The condition holds of a value that is read, if this is so of inner objects and arrays. -/
private theorem yields_readWith {objects : Reader Object} {arrays : Reader (List Element)}
    (hdepth : depth ≤ limit)
    (hobjects : depth < limit →
      objects.Yields (depth + 1) fun _ fields => ∀ p ∈ fields, P (depth + 1) p.1 p.2)
    (harrays : depth < limit →
      arrays.Yields (depth + 1) fun _ elements => HoldsInside limit P (depth + 1) elements)
    {f : Field} {length : Option Nat} (hlength : f.variableLength = false → length = none) :
    (readWith (Reader.nested limit objects) (Reader.nested limit arrays) f.kind length).Yields depth
      fun _ v => P depth f v := by
  by_cases hobject : f.kind = .object
  · rw [hobject]
    refine (Reader.Yields.nested hobjects).bind ?_
    rintro _ fields ⟨hlt, hfields⟩
    exact .pure (hP.object hlt hobject hfields)
  · by_cases harray : f.kind = .array
    · rw [harray]
      refine (Reader.Yields.nested harrays).bind ?_
      rintro _ elements ⟨hlt, helements⟩
      exact .pure (hP.array hlt harray helements)
    · refine (yields_measured_leaf hobject harray hlength _ _).mono ?_
      rintro _ v ⟨hmeasured, hleaf⟩
      exact hP.leaf hdepth hmeasured hleaf

/-- The condition holds of what the readers of objects and arrays yield, if it holds of what was
taken before. -/
theorem yields_nested (fuel : Nat) :
    (∀ depth inner taken, depth ≤ limit → (∀ p ∈ taken, P depth p.1 p.2) →
      (readFields registry limit fuel inner taken).Yields depth fun _ fields =>
        ∀ p ∈ fields, P depth p.1 p.2) ∧
    ∀ depth taken, HoldsInside limit P depth taken →
      (readElements registry limit fuel taken).Yields depth fun _ elements =>
        HoldsInside limit P depth elements := by
  induction fuel with
  | zero =>
    constructor
    · intro depth inner taken _ _
      rw [readFields]
      exact .throw _
    · intro depth taken _
      rw [readElements]
      exact .throw _
  | succ fuel ih =>
    obtain ⟨hfields, helements⟩ := ih
    have hinner : ∀ depth, depth < limit → (readFields registry limit fuel true []).Yields
        (depth + 1) fun _ fields => ∀ p ∈ fields, P (depth + 1) p.1 p.2 :=
      fun depth hdepth => hfields (depth + 1) true [] hdepth (List.forall_mem_nil _)
    have harray : ∀ depth, (readElements registry limit fuel []).Yields (depth + 1)
        fun _ elements => HoldsInside limit P (depth + 1) elements :=
      fun depth => helements (depth + 1) [] (List.forall_mem_nil _)
    constructor
    · intro depth inner taken hdepth htaken
      have hdone : ∀ p ∈ taken.reverse, P depth p.1 p.2 :=
        fun p hp => htaken p (List.mem_reverse.1 hp)
      rw [readFields]
      refine Reader.Yields.get.nil_bind fun _ _ => ?_
      split
      · exact .pure hdone
      · refine Registry.yields_readField.bind fun _ f _ => ?_
        split
        · exact .pure hdone
        · split
          · exact .throw _
          · refine (yields_readOfFieldWith fun length hlength =>
              hP.yields_readWith hdepth (hinner depth) (fun _ => harray depth) hlength).bind ?_
            rintro _ v ⟨-, hv, -⟩
            exact hfields depth inner ((f, v) :: taken) hdepth
              (List.forall_mem_cons.2 ⟨hv, htaken⟩)
    · intro depth taken htaken
      rw [readElements]
      refine Registry.yields_readField.bind fun _ f _ => ?_
      split
      · exact .pure fun e he => htaken e (List.mem_reverse.1 he)
      · split
        · refine (Reader.Yields.nested (hinner depth)).bind ?_
          rintro _ fields ⟨hdepth, hfields⟩
          exact helements depth ((f, fields) :: taken)
            (List.forall_mem_cons.2 ⟨⟨hdepth, hfields⟩, htaken⟩)
        · exact .throw _

/-- The condition holds of what is read in a field. -/
theorem yields_readOfField (hdepth : depth ≤ limit) (f : Field) :
    (readOfField registry limit f).Yields depth fun _ v => P depth f v := by
  have hframed : (readOfField registry limit f).Yields depth fun framed v =>
      ∃ inner, P depth f v ∧ FramedFrom f inner framed := by
    refine yields_readOfFieldWith fun length hlength => ?_
    refine Reader.Yields.get.nil_bind fun c _ => ?_
    refine hP.yields_readWith hdepth (fun hlt => ?_) (fun _ => ?_) hlength
    · exact (hP.yields_nested (c.remaining + 1)).1 (depth + 1) true [] hlt (List.forall_mem_nil _)
    · exact (hP.yields_nested (c.remaining + 1)).2 (depth + 1) [] (List.forall_mem_nil _)
  exact hframed.mono fun _ _ ⟨_, hv, _⟩ => hv

/-- The condition holds of the fields of a byte string. -/
theorem of_ofBytes {bytes : List UInt8} {fields : Object}
    (h : Object.ofBytes registry limit bytes = .ok fields) : ∀ p ∈ fields, P 0 p.1 p.2 := by
  rw [Object.ofBytes] at h
  split at h
  · next result c hroot =>
    cases h
    have hread : readFields registry limit (bytes.length + 1) false [] (Cursor.start bytes) =
        .ok fields c := hroot
    obtain ⟨-, -, -, -, hfields⟩ := (hP.yields_nested (bytes.length + 1)).1 0 false []
      (Nat.zero_le _) (List.forall_mem_nil _) _ _ _ rfl hread
    exact hfields
  · cases h

end IsInductive

/-! ### Bytes behind their length -/

theorem isMeasured_of_kind_ne {f : Field} (hblob : f.kind ≠ .blob) (hvector : f.kind ≠ .vector256) :
    f.IsMeasured :=
  fun h => absurd h (not_or.2 ⟨hblob, hvector⟩)

/-- That bytes stand behind their length, at every level, is inductive. -/
theorem isInductive_measured : IsInductive limit fun _ f v => f.IsMeasured ∧ v.Obeys .measured where
  leaf _ hmeasured hleaf := ⟨hmeasured, obeys_of_isLeaf hleaf⟩
  object _ hkind hfields :=
    ⟨isMeasured_of_kind_ne (hkind ▸ nofun) (hkind ▸ nofun),
      obeys_object.2 ((Object.obeys_iff_forall Rule.isLocal_measured).2 hfields)⟩
  array _ hkind helements :=
    ⟨isMeasured_of_kind_ne (hkind ▸ nofun) (hkind ▸ nofun),
      obeys_array.2 (elementsObey_iff_forall.2 fun e he =>
        ⟨trivial, (Object.obeys_iff_forall Rule.isLocal_measured).2 (helements e he).2⟩)⟩

/-- In a value that was read, bytes stand behind their length at every level. -/
theorem yields_measured (hdepth : depth ≤ limit) (f : Field) :
    (readOfField registry limit f).Yields depth fun _ v => Object.Obeys .measured [(f, v)] :=
  (isInductive_measured.yields_readOfField hdepth f).mono fun _ _ ⟨hf, hv⟩ =>
    Object.obeys_cons.2 ⟨hf, hv, Object.obeys_nil⟩

end Value

end FieldWire
