import FieldWire.Proofs.Plain.Expansion
import FieldWire.Proofs.Plain.Reading

/-!
# Reading plain values level by level

The reader of plain values goes down one level at a time and carries a number above the levels that
are left. Which one does not count (`Plain.valueWith_eq_ofJson`): values inside lists and objects
are lower than these, and replaced addresses and codes of names have no levels at all. So reading a
value is reading an object, an array or a leaf, with the same reader for the values inside
(`Value.ofJson_object`, `Value.ofJson_array`, `Value.ofJson_leaf`, `Object.ofJson_eq`), and facts
about it need not mention levels.
-/

namespace FieldWire

namespace Json

theorem depth_le_of_mem_items {items : List Json} {item : Json} (h : item ∈ items) :
    item.depth ≤ depthItems items := by
  induction items with
  | nil => cases h
  | cons first rest ih =>
    rw [depthItems]
    rcases List.mem_cons.1 h with rfl | h
    · exact Nat.le_max_left _ _
    · exact Nat.le_trans (ih h) (Nat.le_max_right _ _)

theorem depth_le_of_mem_members {members : Members Json} {m : String × Json} (h : m ∈ members) :
    m.2.depth ≤ depthMembers members := by
  induction members with
  | nil => cases h
  | cons first rest ih =>
    obtain ⟨key, value⟩ := first
    rw [depthMembers]
    rcases List.mem_cons.1 h with rfl | h
    · exact Nat.le_max_left _ _
    · exact Nat.le_trans (ih h) (Nat.le_max_right _ _)

end Json

namespace Plain

theorem collect_congr {α β : Type} {f g : α → Except Error (Option β)} {items : List α}
    (h : ∀ a ∈ items, f a = g a) : collect f items = collect g items := by
  induction items with
  | nil => rfl
  | cons a rest ih =>
    obtain ⟨ha, hrest⟩ := List.forall_mem_cons.1 h
    rw [collect, collect, ha, ih hrest]

variable {context : Context} {convert convert' : Kind → Json → Except Error Value}
  {onlySigning : Bool} {n : Nat}

private theorem fieldOfMember_congr
    (h : ∀ kind j, j.depth < n → convert kind j = convert' kind j) {m : String × Json}
    (hm : m.2.depth < n) : fieldOfMember context convert onlySigning m =
      fieldOfMember context convert' onlySigning m := by
  have hvalue : ∀ f, valueOfField context convert f m.2 = valueOfField context convert' f m.2 := by
    intro f
    rw [valueOfField, valueOfField]
    cases context.registry.enumTable? f.name with
    | none =>
      dsimp only
      rw [h f.kind m.2 hm]
    | some table =>
      dsimp only
      cases hcode : enumCode f table m.2 with
      | error e => rfl
      | ok code =>
        obtain ⟨k, rfl⟩ := exists_int_of_enumCode hcode
        dsimp only
        rw [h f.kind (.int k) (Nat.lt_of_le_of_lt (Nat.zero_le _) hm)]
  simp only [fieldOfMember, hvalue]

/-- Readers that agree below a level read objects of that level alike. -/
private theorem objectWith_congr
    (h : ∀ kind j, j.depth < n → convert kind j = convert' kind j) {j : Json} (hj : j.depth ≤ n) :
    objectWith context convert onlySigning j = objectWith context convert' onlySigning j := by
  cases j with
  | obj given =>
    rw [objectWith, objectWith]
    dsimp only [Json.obj?]
    cases hexpand : expand context.addresses given with
    | error e => rfl
    | ok members =>
      dsimp only
      rw [Json.depth] at hj
      refine congrArg (Except.map Object.sorted) (collect_congr fun m hm => ?_)
      refine fieldOfMember_congr h ?_
      obtain hgiven | ⟨hleaf, -⟩ := mem_of_expand hexpand hm
      · exact Nat.lt_of_le_of_lt (Json.depth_le_of_mem_members hgiven) hj
      · rw [Json.depth_of_leaf hleaf]
        exact Nat.lt_of_le_of_lt (Nat.zero_le _) hj
  | null | bool _ | num _ | str _ | arr _ => rfl

/-- Readers that agree below a level read arrays of that level alike. -/
private theorem arrayWith_congr
    (h : ∀ kind j, j.depth < n → convert kind j = convert' kind j) {j : Json} (hj : j.depth ≤ n) :
    arrayWith context convert j = arrayWith context convert' j := by
  cases j with
  | arr items =>
    rw [Json.depth] at hj
    refine collect_congr fun item hitem => congrArg (Except.map some) ?_
    have hlow := Json.depth_le_of_mem_items hitem
    unfold elementWith
    split
    · next name inner =>
      have hinner : inner.depth ≤ n := by
        rw [Json.depth, Json.depthMembers, Json.depthMembers] at hlow
        omega
      rw [objectWith_congr h hinner]
    · rfl
  | null | bool _ | num _ | str _ | obj _ => rfl

/-- Numbers above the levels of a value do not count. -/
private theorem valueWith_congr {fuel fuel' : Nat} {kind : Kind} {j : Json}
    (hfuel : j.depth < fuel) (hfuel' : j.depth < fuel') :
    valueWith context fuel kind j = valueWith context fuel' kind j := by
  induction fuel generalizing fuel' kind j with
  | zero => exact absurd hfuel (Nat.not_lt_zero _)
  | succ fuel ih =>
    obtain ⟨fuel', rfl⟩ : ∃ k, fuel' = k + 1 := ⟨fuel' - 1, by omega⟩
    have hlower : ∀ kind i, i.depth < j.depth →
        valueWith context fuel kind i = valueWith context fuel' kind i := by
      intro kind i hi
      exact ih (by omega) (by omega)
    rw [valueWith, valueWith, arrayWith_congr hlower (Nat.le_refl _),
      objectWith_congr hlower (Nat.le_refl _)]

theorem valueWith_eq_ofJson {fuel : Nat} {kind : Kind} {j : Json} (h : j.depth < fuel) :
    valueWith context fuel kind j = Value.ofJson context kind j :=
  valueWith_congr h (Nat.lt_succ_self _)

theorem fieldOfMember_valueWith {fuel : Nat} {m : String × Json} (h : m.2.depth < fuel) :
    fieldOfMember context (valueWith context fuel) onlySigning m =
      fieldOfMember context (Value.ofJson context) onlySigning m :=
  fieldOfMember_congr (fun _ _ hj => valueWith_eq_ofJson hj) h

end Plain

/-! ### Equations -/

variable {context : Context}

/-- An object is read with the reader of values. -/
theorem Object.ofJson_eq (onlySigning : Bool) (j : Json) : ofJson context onlySigning j =
    Plain.objectWith context (Value.ofJson context) onlySigning j :=
  Plain.objectWith_congr (fun _ _ h => Plain.valueWith_eq_ofJson h) (Nat.le_refl _)

namespace Value

theorem ofJson_object (j : Json) : ofJson context .object j =
    (Plain.objectWith context (ofJson context) false j).map object := by
  rw [ofJson, Plain.valueWith_object]
  exact congrArg (Except.map object)
    (Plain.objectWith_congr (fun _ _ h => Plain.valueWith_eq_ofJson h) (Nat.le_refl _))

theorem ofJson_array (j : Json) : ofJson context .array j =
    (Plain.arrayWith context (ofJson context) j).map array := by
  rw [ofJson, Plain.valueWith_array]
  exact congrArg (Except.map array)
    (Plain.arrayWith_congr (fun _ _ h => Plain.valueWith_eq_ofJson h) (Nat.le_refl _))

theorem ofJson_leaf {kind : Kind} {j : Json} {result : Except Error Value}
    (h : leafOfJson? context.addresses kind j = some result) : ofJson context kind j = result :=
  Plain.valueWith_of_leafOfJson? h _

end Value

end FieldWire
