import FieldWire.Plain.Object
import Mathlib.Data.List.Forall2

/-!
# Outcomes of several steps

Steps in a row succeed if each of them does (`bind_eq_ok_iff`). Lists are converted item by item and
fail with the first item that fails, so a conversion that succeeds relates the items to their
results one by one (`mapM_eq_ok_iff`). Two outcomes *agree* if both are failures, for whatever
reasons, or both are the same result (`Agree`); steps that agree make wholes that agree. Members of
an object may be passed over (`Plain.collect_eq_ok_iff`): those that are kept stand in the order of
the given ones (`Plain.exists_sublist_of_collect`), if none is passed over, all are related
(`Plain.collect_of_forall₂`), and a conversion that passes over more keeps fewer of the same
(`Plain.collect_filter`).
-/

namespace FieldWire

variable {α β ε : Type}

theorem bind_eq_ok_iff {x : Except ε α} {k : α → Except ε β} {b : β} :
    (x >>= k) = .ok b ↔ ∃ a, x = .ok a ∧ k a = .ok b := by
  cases x with
  | error e => exact ⟨nofun, nofun⟩
  | ok a => exact ⟨fun h => ⟨a, rfl, h⟩, fun ⟨_, ha, h⟩ => Except.ok.inj ha ▸ h⟩

theorem map_eq_ok_iff {x : Except ε α} {f : α → β} {b : β} :
    x.map f = .ok b ↔ ∃ a, x = .ok a ∧ f a = b := by
  cases x with
  | error e => exact ⟨nofun, nofun⟩
  | ok a => simp [Except.map]

theorem mapError_eq_ok_iff {ε' : Type} {x : Except ε α} {f : ε → ε'} {a : α} :
    x.mapError f = .ok a ↔ x = .ok a := by
  cases x with
  | error e => exact ⟨nofun, nofun⟩
  | ok b => simp [Except.mapError]

/-- A result that can be compared tells an outcome whose errors cannot. -/
theorem eq_ok_of_toOption {x : Except ε α} {a : α} (h : x.toOption = some a) : x = .ok a := by
  cases x with
  | error e => cases h
  | ok b => rw [Option.some.inj h]

/-! ### Agreement -/

/-- Both fail, or both have the same result. -/
def Agree (x y : Except ε α) : Prop := ∀ a, x = .ok a ↔ y = .ok a

namespace Agree

variable {x y : Except ε α}

theorem refl (x : Except ε α) : Agree x x := fun _ => Iff.rfl

theorem symm (h : Agree x y) : Agree y x := fun a => (h a).symm

theorem of_error (e e' : ε) : Agree (.error e : Except ε α) (.error e') :=
  fun _ => iff_of_false nofun nofun

theorem bind {k l : α → Except ε β} (h : Agree x y) (hk : ∀ a, Agree (k a) (l a)) :
    Agree (x >>= k) (y >>= l) := by
  intro b
  rw [bind_eq_ok_iff, bind_eq_ok_iff]
  exact exists_congr fun a => and_congr (h a) (hk a b)

theorem map (h : Agree x y) (f : α → β) : Agree (x.map f) (y.map f) := by
  intro b
  rw [map_eq_ok_iff, map_eq_ok_iff]
  exact exists_congr fun a => and_congr_left fun _ => h a

theorem mapError {ε' : Type} (h : Agree x y) (f g : ε → ε') :
    Agree (x.mapError f) (y.mapError g) := by
  intro a
  rw [mapError_eq_ok_iff, mapError_eq_ok_iff]
  exact h a

end Agree

/-- Related results are both missing or both there. -/
theorem eq_none_iff_of_rel {R : α → β → Prop} {o : Option α} {o' : Option β}
    (h : Option.Rel R o o') : o = none ↔ o' = none := by
  cases h <;> simp

/-- Results that may be missing stay related if the relation is weakened where they are there. -/
theorem rel_mono {R S : α → β → Prop} {o : Option α} {o' : Option β} (h : Option.Rel R o o')
    (himp : ∀ a, o = some a → ∀ b, o' = some b → R a b → S a b) : Option.Rel S o o' := by
  cases h with
  | none => exact .none
  | some hR => exact .some (himp _ rfl _ rfl hR)

/-! ### Lists -/

/-- Of lists that are related item by item, every item on the right has one on the left. -/
theorem exists_left_of_forall₂ {R : α → β → Prop} {as : List α} {bs : List β}
    (h : List.Forall₂ R as bs) {b : β} (hb : b ∈ bs) : ∃ a ∈ as, R a b := by
  induction h with
  | nil => cases hb
  | @cons a _ as _ hab _ ih =>
    rcases List.mem_cons.1 hb with rfl | hb
    · exact ⟨a, List.mem_cons_self, hab⟩
    · obtain ⟨a', ha', hab'⟩ := ih hb
      exact ⟨a', List.mem_cons_of_mem a ha', hab'⟩

/-- Of lists that are related item by item, every item on the left has one on the right. -/
theorem exists_right_of_forall₂ {R : α → β → Prop} {as : List α} {bs : List β}
    (h : List.Forall₂ R as bs) {a : α} (ha : a ∈ as) : ∃ b ∈ bs, R a b :=
  exists_left_of_forall₂ h.flip ha

private theorem mapM_cons_eq_ok_iff {f : α → Except ε β} {a : α} {rest : List α}
    {results : List β} : (a :: rest).mapM f = .ok results ↔
      ∃ b bs, f a = .ok b ∧ rest.mapM f = .ok bs ∧ results = b :: bs := by
  rw [List.mapM_cons]
  constructor
  · intro h
    obtain ⟨b, hb, h⟩ := bind_eq_ok_iff.1 h
    obtain ⟨bs, hbs, h⟩ := bind_eq_ok_iff.1 h
    exact ⟨b, bs, hb, hbs, (Except.ok.inj h).symm⟩
  · rintro ⟨b, bs, hb, hbs, rfl⟩
    rw [hb, hbs]
    rfl

/-- A list converts if its items do. -/
theorem mapM_eq_ok_iff {f : α → Except ε β} {items : List α} {results : List β} :
    items.mapM f = .ok results ↔ List.Forall₂ (fun a b => f a = .ok b) items results := by
  induction items generalizing results with
  | nil =>
    rw [List.forall₂_nil_left_iff]
    exact ⟨fun h => (Except.ok.inj h).symm, fun h => h ▸ rfl⟩
  | cons a rest ih =>
    rw [mapM_cons_eq_ok_iff, List.forall₂_cons_left_iff]
    simp only [ih]

/-- Lists that are related to the same list are related item by item through its items. -/
theorem forall₂_of_common {γ : Type} {R : α → γ → Prop} {S : β → γ → Prop} {as : List α}
    {bs : List β} {cs : List γ} (h : List.Forall₂ R as cs) (h' : List.Forall₂ S bs cs) :
    List.Forall₂ (fun a b => ∃ c, R a c ∧ S b c) as bs := by
  induction h generalizing bs with
  | nil =>
    cases h'
    exact .nil
  | cons hac _ ih =>
    obtain _ | ⟨hbc, hrest⟩ := h'
    exact .cons ⟨_, hac, hbc⟩ (ih hrest)

/-- The two sides of related pairs are related item by item. -/
theorem forall₂_of_pairs {R : α → β → Prop} {pairs : List (α × β)} (h : ∀ p ∈ pairs, R p.1 p.2) :
    List.Forall₂ R (pairs.map Prod.fst) (pairs.map Prod.snd) := by
  rw [List.forall₂_map_left_iff, List.forall₂_map_right_iff, List.forall₂_same]
  exact h

namespace Agree

variable {γ δ : Type} {f : γ → Except ε β}

/-- Lists of which related items agree convert to the same. -/
theorem forall₂_iff {g : δ → Except ε β} {items : List γ} {items' : List δ}
    (h : List.Forall₂ (fun a c => Agree (f a) (g c)) items items') {results : List β} :
    List.Forall₂ (fun a b => f a = .ok b) items results ↔
      List.Forall₂ (fun c b => g c = .ok b) items' results := by
  induction h generalizing results with
  | nil => rw [List.forall₂_nil_left_iff, List.forall₂_nil_left_iff]
  | cons hac _ ih =>
    rw [List.forall₂_cons_left_iff, List.forall₂_cons_left_iff]
    refine exists_congr fun b => exists_congr fun bs => and_congr (hac b) ?_
    exact and_congr_left fun _ => ih

theorem mapM {pairs : List (γ × γ)} (h : ∀ p ∈ pairs, Agree (f p.1) (f p.2)) :
    Agree ((pairs.map Prod.fst).mapM f) ((pairs.map Prod.snd).mapM f) := by
  intro results
  rw [mapM_eq_ok_iff, mapM_eq_ok_iff]
  exact forall₂_iff (forall₂_of_pairs h)

end Agree

/-- Items that are given by what they convert to. -/
theorem mapM_map_eq_ok {f : α → Except ε β} {g : β → α} {results : List β}
    (h : ∀ b ∈ results, f (g b) = .ok b) : (results.map g).mapM f = .ok results := by
  refine mapM_eq_ok_iff.2 ?_
  rw [List.forall₂_map_left_iff, List.forall₂_same]
  exact h

theorem exists_of_mapM_eq_ok {f : α → Except ε β} {items : List α} {results : List β}
    (h : items.mapM f = .ok results) {b : β} (hb : b ∈ results) : ∃ a ∈ items, f a = .ok b :=
  exists_left_of_forall₂ (mapM_eq_ok_iff.1 h) hb

/-! ### Members -/

namespace Plain

variable {convert : α → Except Error (Option β)}

/-- A list is collected if its items convert, and items that convert to nothing are passed over. -/
theorem collect_eq_ok_iff {items : List α} {results : List β} :
    collect convert items = .ok results ↔ ∃ found,
      List.Forall₂ (fun a o => convert a = .ok o) items found ∧ found.filterMap id = results := by
  induction items generalizing results with
  | nil => simp [collect, eq_comm]
  | cons a rest ih =>
    rw [collect]
    constructor
    · intro h
      split at h
      · cases h
      · next ha =>
        obtain ⟨found, hfound, rfl⟩ := ih.1 h
        exact ⟨none :: found, .cons ha hfound, rfl⟩
      · next b hb =>
        split at h
        · cases h
        · next bs hbs =>
          cases h
          obtain ⟨found, hfound, rfl⟩ := ih.1 hbs
          exact ⟨some b :: found, .cons hb hfound, rfl⟩
    · rintro ⟨_, hfound, rfl⟩
      obtain ⟨o, found, ha, hrest, rfl⟩ := List.forall₂_cons_left_iff.1 hfound
      have hcollect := ih.2 ⟨found, hrest, rfl⟩
      rw [ha]
      cases o with
      | none => exact hcollect
      | some b =>
        dsimp only
        rw [hcollect]
        rfl

/-- What is collected comes, in order, from some of the items. -/
theorem exists_sublist_of_collect {items : List α} {results : List β}
    (h : collect convert items = .ok results) : ∃ kept, List.Sublist kept items ∧
      List.Forall₂ (fun a b => convert a = .ok (some b)) kept results := by
  induction items generalizing results with
  | nil =>
    cases h
    exact ⟨[], .slnil, .nil⟩
  | cons a rest ih =>
    rw [collect] at h
    split at h
    · cases h
    · obtain ⟨kept, hkept, hrelated⟩ := ih h
      exact ⟨kept, hkept.cons a, hrelated⟩
    · next b hb =>
      split at h
      · cases h
      · next bs hbs =>
        cases h
        obtain ⟨kept, hkept, hrelated⟩ := ih hbs
        exact ⟨a :: kept, hkept.cons_cons a, .cons hb hrelated⟩

/-- Everything that is collected comes from some item. -/
theorem exists_mem_of_collect {items : List α} {results : List β}
    (h : collect convert items = .ok results) {b : β} (hb : b ∈ results) :
    ∃ a ∈ items, convert a = .ok (some b) := by
  obtain ⟨kept, hkept, hrelated⟩ := exists_sublist_of_collect h
  obtain ⟨a, ha, hab⟩ := exists_left_of_forall₂ hrelated hb
  exact ⟨a, hkept.mem ha, hab⟩

/-- What an item converts to is collected. -/
theorem mem_of_collect {items : List α} {results : List β}
    (h : collect convert items = .ok results) {a : α} (ha : a ∈ items) {b : β}
    (hb : convert a = .ok (some b)) : b ∈ results := by
  obtain ⟨found, hfound, rfl⟩ := collect_eq_ok_iff.1 h
  obtain ⟨o, ho, hao⟩ := exists_right_of_forall₂ hfound ha
  obtain rfl := Except.ok.inj (hb.symm.trans hao)
  exact List.mem_filterMap.2 ⟨_, ho, rfl⟩

/-- A list is collected if each of its items converts. -/
theorem exists_collect_iff {items : List α} : (∃ results, collect convert items = .ok results) ↔
    ∀ a ∈ items, ∃ o, convert a = .ok o := by
  induction items with
  | nil => exact ⟨fun _ => List.forall_mem_nil _, fun _ => ⟨[], rfl⟩⟩
  | cons a rest ih =>
    rw [List.forall_mem_cons, ← ih]
    constructor
    · rintro ⟨results, h⟩
      obtain ⟨found, hfound, -⟩ := collect_eq_ok_iff.1 h
      obtain ⟨o, found, ho, hrest, rfl⟩ := List.forall₂_cons_left_iff.1 hfound
      exact ⟨⟨o, ho⟩, _, collect_eq_ok_iff.2 ⟨found, hrest, rfl⟩⟩
    · rintro ⟨⟨o, ho⟩, results, h⟩
      obtain ⟨found, hfound, -⟩ := collect_eq_ok_iff.1 h
      exact ⟨_, collect_eq_ok_iff.2 ⟨o :: found, .cons ho hfound, rfl⟩⟩

/-- Lists of which related items convert alike are collected alike. -/
theorem agree_collect {γ : Type} {convert' : γ → Except Error (Option β)}
    {items : List α} {items' : List γ}
    (h : List.Forall₂ (fun a c => Agree (convert a) (convert' c)) items items') :
    Agree (collect convert items) (collect convert' items') := by
  intro results
  rw [collect_eq_ok_iff, collect_eq_ok_iff]
  exact exists_congr fun found => and_congr_left fun _ => Agree.forall₂_iff h

/-- If another conversion keeps of every result what `keep` tells, it keeps that of the whole. -/
theorem collect_filter {convert' : α → Except Error (Option β)} {keep : β → Bool} {items : List α}
    {results : List β} (h : ∀ a ∈ items, ∀ o, convert a = .ok o → convert' a = .ok (o.filter keep))
    (hcollect : collect convert items = .ok results) :
    collect convert' items = .ok (results.filter keep) := by
  obtain ⟨found, hfound, rfl⟩ := collect_eq_ok_iff.1 hcollect
  refine collect_eq_ok_iff.2 ⟨found.map (Option.filter keep), ?_, ?_⟩
  · rw [List.forall₂_map_right_iff]
    exact List.forall₂_iff_zip.2 ⟨hfound.length_eq, fun hab =>
      h _ (List.of_mem_zip hab).1 _ (List.forall₂_zip hfound hab)⟩
  · rw [List.filterMap_map, List.filter_filterMap]
    rfl

/-- Items that are passed over can as well be taken out before. -/
theorem collect_filter_of_none {keep : α → Bool} {items : List α}
    (h : ∀ a ∈ items, keep a = false → convert a = .ok none) :
    collect convert (items.filter keep) = collect convert items := by
  induction items with
  | nil => rfl
  | cons a rest ih =>
    obtain ⟨ha, hrest⟩ := List.forall_mem_cons.1 h
    cases hkeep : keep a with
    | true => rw [List.filter_cons_of_pos hkeep, collect, collect, ih hrest]
    | false =>
      rw [List.filter_cons_of_neg (by simp [hkeep]), ih hrest, collect, ha hkeep]

theorem collect_of_forall₂ {items : List α} {results : List β}
    (h : List.Forall₂ (fun a b => convert a = .ok (some b)) items results) :
    collect convert items = .ok results := by
  induction h with
  | nil => rfl
  | cons hab _ ih => simp only [collect, hab, ih]

end Plain

end FieldWire
