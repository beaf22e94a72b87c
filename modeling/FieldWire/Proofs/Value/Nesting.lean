import FieldWire.Proofs.Value.Inductive
import FieldWire.Proofs.Value.Normal

/-!
# How deeply values nest

Readers count the objects and arrays that are open and open no more than the limit allows, so the
object of a byte string has at most as many levels (`Object.nesting_le_of_ofBytes`). This holds of
every registry. Bringing an object into its normal form adds no levels
(`Object.nesting_normal_le`).
-/

namespace FieldWire

namespace Value

theorem nesting_of_isLeaf {v : Value} (h : v.IsLeaf) : v.nesting = 0 := by
  cases v
  case object => exact absurd rfl h.1
  case array => exact absurd rfl h.2
  all_goals rw [nesting] <;> nofun

theorem nestingFields_le_iff {fields : Object} {n : Nat} :
    nestingFields fields ≤ n ↔ ∀ p ∈ fields, p.2.nesting ≤ n := by
  induction fields with
  | nil => simp [nestingFields]
  | cons p rest ih =>
    obtain ⟨f, v⟩ := p
    rw [nestingFields, Nat.max_le, ih, List.forall_mem_cons]

theorem nestingElements_le_iff {elements : List Element} {n : Nat} :
    nestingElements elements ≤ n ↔ ∀ e ∈ elements, nestingFields e.2 + 1 ≤ n := by
  induction elements with
  | nil => simp [nestingElements]
  | cons e rest ih =>
    obtain ⟨f, fields⟩ := e
    rw [nestingElements, Nat.max_le, ih, List.forall_mem_cons]

/-! ### Values that are read -/

/-- That a value has no more levels than the limit leaves is inductive. -/
theorem isInductive_nesting {limit : Nat} :
    IsInductive limit fun depth _ v => v.nesting + depth ≤ limit where
  leaf hdepth _ hleaf := by
    rw [nesting_of_isLeaf hleaf]
    omega
  object {depth _ fields} hdepth _ hfields := by
    have hle : nestingFields fields ≤ limit - (depth + 1) := by
      refine nestingFields_le_iff.2 fun p hp => ?_
      have hp' := hfields p hp
      omega
    rw [nesting]
    omega
  array {depth _ elements} hdepth _ helements := by
    have hle : nestingElements elements ≤ limit - (depth + 1) := by
      refine nestingElements_le_iff.2 fun e he => ?_
      obtain ⟨hlt, hfields⟩ := helements e he
      have hle : nestingFields e.2 ≤ limit - (depth + 2) := by
        refine nestingFields_le_iff.2 fun p hp => ?_
        have hp' := hfields p hp
        omega
      omega
    rw [nesting]
    omega

/-! ### Normal forms -/

mutual
/-- A normal form has no more levels than what it comes from. -/
theorem nesting_normal_le : (v : Value) → v.normal.nesting ≤ v.nesting
  | .object fields => by
    have hle := nesting_normalFields_le fields (List.forall_mem_nil _) (Nat.le_refl _)
    rw [normal, nesting, nesting]
    refine Nat.succ_le_succ (nestingFields_le_iff.2 fun p hp => ?_)
    exact hle p ((Object.sorted_perm _).mem_iff.1 hp)
  | .array elements => by
    rw [normal, nesting, nesting]
    exact Nat.succ_le_succ (nesting_normalElements_le elements)
  | .uint8 _ | .uint16 _ | .uint32 _ | .uint64 _ | .hash128 _ | .hash160 _ | .hash256 _
  | .account _ | .blob _ | .amount _ | .currency _ | .issue _ | .vector256 _ | .pathSet _ =>
    Nat.le_of_eq (congrArg nesting (normal_of_isLeaf ⟨nofun, nofun⟩))

/-- Fields that are put among others add no levels but their own. -/
theorem nesting_normalFields_le : (fields : List (Field × Value)) → {done : Object} → {n : Nat} →
    (∀ p ∈ done, p.2.nesting ≤ n) → nestingFields fields ≤ n →
      ∀ p ∈ normalFields fields done, p.2.nesting ≤ n
  | [], _, _, hdone, _ => by rwa [normalFields]
  | (_, v) :: rest, _, _, hdone, hn => by
    rw [nestingFields, Nat.max_le] at hn
    have hv := Nat.le_trans (nesting_normal_le v) hn.1
    rw [normalFields]
    exact nesting_normalFields_le rest (Object.forall_mem_put hv hdone) hn.2

/-- Normal elements have no more levels than what they come from. -/
theorem nesting_normalElements_le : (elements : List (Field × List (Field × Value))) →
    nestingElements (normalElements elements) ≤ nestingElements elements
  | [] => by rw [normalElements]
  | (_, fields) :: rest => by
    have hle := nesting_normalFields_le fields (List.forall_mem_nil _) (Nat.le_refl _)
    have hfields : nestingFields (Object.sorted (normalFields fields [])) ≤ nestingFields fields :=
      nestingFields_le_iff.2 fun p hp => hle p ((Object.sorted_perm _).mem_iff.1 hp)
    have hrest := nesting_normalElements_le rest
    rw [normalElements, nestingElements, nestingElements]
    omega
end

end Value

namespace Object

/-- The object of a byte string has no more levels than the limit allows. -/
theorem nesting_le_of_ofBytes {registry : Registry} {limit : Nat} {bytes : List UInt8}
    {fields : Object} (h : ofBytes registry limit bytes = .ok fields) : fields.nesting ≤ limit :=
  Value.nestingFields_le_iff.2 (Value.isInductive_nesting.of_ofBytes h)

/-- A normal object has no more levels than what it comes from. -/
theorem nesting_normal_le (fields : Object) : fields.normal.nesting ≤ fields.nesting :=
  Value.nestingFields_le_iff.2 fun p hp =>
    Value.nesting_normalFields_le fields (List.forall_mem_nil _) (Nat.le_refl _) p
      ((sorted_perm _).mem_iff.1 hp)

end Object

end FieldWire
