import FieldWire.Proofs.Outcome
import FieldWire.Proofs.Plain.Alike
import Mathlib.Data.List.Perm.Basic

/-!
# Leaves of alike plain values

Most conversions of plain values refuse lists and objects, and where they do not refuse, alike
values are the same (`RefusesContainers.agree`). Amounts, assets and steps of paths are objects
whose members are looked up by their keys, so it does not count in which order the keys stand; and a
null member counts as one, so `Leeway.content` allows none to come or go there. Hence a leaf is read
from alike values alike (`Value.agree_leaf`).
-/

namespace FieldWire

/-! ### Look-ups -/

namespace Members

variable {β γ : Type}

theorem get?_eq_none_iff {members : Members β} {key : String} :
    members.get? key = none ↔ key ∉ members.keys := by
  induction members with
  | nil => simp [keys]
  | cons m rest ih =>
    obtain ⟨k, v⟩ := m
    rw [get?_cons, keys, List.map_cons, List.mem_cons, not_or]
    split
    · next hk => simp [hk]
    · next hk => rw [ih, and_iff_right (Ne.symm hk), keys]

/-- The order of members does not count where keys are different. -/
theorem get?_of_perm {members members' : Members β} (h : members.Perm members')
    (hkeys : members.keys.Nodup) (key : String) : members.get? key = members'.get? key := by
  have hkeys' : members'.keys.Nodup := (h.map Prod.fst).nodup_iff.1 hkeys
  cases hget : members'.get? key with
  | none =>
    rw [get?_eq_none_iff] at hget ⊢
    exact fun hmem => hget ((h.map Prod.fst).mem_iff.1 hmem)
  | some value =>
    exact get?_eq_some_of_mem hkeys (h.mem_iff.2 (mem_of_get?_eq_some hget))

theorem get?_map (f : β → γ) (members : Members β) (key : String) :
    get? (members.map fun m => (m.1, f m.2)) key = (members.get? key).map f := by
  induction members with
  | nil => rfl
  | cons m rest ih =>
    obtain ⟨k, v⟩ := m
    rw [List.map_cons, get?_cons, get?_cons, ih]
    split <;> rfl

/-- Members that have their keys in common are related at every key if they are where they have
it. -/
theorem rel_get?_of_shared {R : String → Json → Json → Prop} {members members' : Members Json}
    (hkeys : members.keys.Nodup) (hkeys' : members'.keys.Nodup)
    {shared : List (String × Json × Json)}
    (htold : members.Perm (shared.map fun m => (m.1, m.2.1)))
    (htold' : members'.Perm (shared.map fun m => (m.1, m.2.2)))
    (hvalues : ∀ m ∈ shared, R m.1 m.2.1 m.2.2) (key : String) :
    Option.Rel (R key) (members.get? key) (members'.get? key) := by
  rw [get?_of_perm htold hkeys, get?_of_perm htold' hkeys', get?_map Prod.fst, get?_map Prod.snd]
  cases hget : get? shared key with
  | none => exact .none
  | some p => exact .some (hvalues _ (mem_of_get?_eq_some hget))

end Members

namespace Json.Alike

variable {registry : Registry} {leeway : Leeway} {role : Role} {j j' : Json}

theorem isNull_eq (h : Alike registry leeway role j j') : j.isNull = j'.isNull := by
  cases h <;> rfl

theorem str?_eq (h : Alike registry leeway role j j') : j.str? = j'.str? := by
  cases h <;> rfl

/-- Objects that hold no fields have the same keys, with alike values. -/
theorem rel_get? {members members' : Members Json}
    (h : Alike registry .content role (.obj members) (.obj members')) (hrole : role ≠ .value .object)
    (hkeys : members.keys.Nodup) (hkeys' : members'.keys.Nodup) (key : String) :
    Option.Rel (Alike registry .content (role.ofMember registry key)) (members.get? key)
      (members'.get? key) := by
  cases h with
  | leaf _ hleaf => cases hleaf
  | obj _ shared htold htold' hvalues =>
    have hperm : ∀ given told, Leeway.content role given told → given.Perm told := by
      intro given told h
      unfold Leeway.content at h
      split at h
      · exact absurd rfl hrole
      · exact h
    exact Members.rel_get?_of_shared (R := fun key => Alike registry .content
      (role.ofMember registry key)) hkeys hkeys' (hperm _ _ htold) (hperm _ _ htold') hvalues key

end Json.Alike

/-! ### Conversions of texts and numbers -/

/-- The conversion refuses lists and objects. -/
def RefusesContainers {α : Type} (convert : Json → Except Error α) : Prop :=
  ∀ j, j.isContainer = true → ∃ e, convert j = .error e

namespace RefusesContainers

variable {α : Type} {convert : Json → Except Error α}

/-- Alike values convert alike. -/
theorem agree (hconvert : RefusesContainers convert) {registry : Registry} {leeway : Leeway}
    {role : Role} {j j' : Json} (h : Json.Alike registry leeway role j j') :
    Agree (convert j) (convert j') := by
  have hcontainers : ∀ i i' : Json, i.isContainer = true → i'.isContainer = true →
      Agree (convert i) (convert i') := by
    intro i i' hi hi'
    obtain ⟨e, he⟩ := hconvert i hi
    obtain ⟨e', he'⟩ := hconvert i' hi'
    rw [he, he']
    exact .of_error e e'
  cases h with
  | leaf => exact .refl _
  | arr => exact hcontainers _ _ rfl rfl
  | obj => exact hcontainers _ _ rfl rfl

/-- A text is neither a list nor an object. -/
theorem expectText (kind : Kind) (k : String → Except Error α) :
    RefusesContainers fun j => FieldWire.expectText kind j >>= k := by
  intro j hj
  cases j <;> first | exact ⟨_, rfl⟩ | cases hj

end RefusesContainers

theorem refuses_accountOfJson (book : AddressBook) : RefusesContainers book.accountOfJson :=
  .expectText _ _

theorem refuses_currencyOfJson : RefusesContainers Currency.ofJson := .expectText _ _

theorem refuses_octetsOfJson (kind : Kind) (n : Nat) :
    RefusesContainers (Value.octetsOfJson kind n) :=
  .expectText _ _

theorem refuses_blobOfJson : RefusesContainers Value.blobOfJson := .expectText _ _

theorem refuses_unsignedOfJson (kind : Kind) (maximum : Nat) :
    RefusesContainers (Value.unsignedOfJson kind maximum) := by
  intro j hj
  cases j <;> first | exact ⟨_, rfl⟩ | cases hj

theorem refuses_uint64OfJson : RefusesContainers Value.uint64OfJson := by
  intro j hj
  cases j <;> first | exact ⟨_, rfl⟩ | cases hj

theorem refuses_issuedValueOfJson : RefusesContainers Amount.issuedValueOfJson := by
  intro j hj
  cases j <;> first | exact ⟨_, rfl⟩ | cases hj

theorem refuses_enumCode (f : Field) (table : EnumTable) :
    RefusesContainers (Plain.enumCode f table) := by
  intro j hj
  cases j <;> first | exact ⟨_, rfl⟩ | cases hj

/-! ### Amounts and assets -/

variable {registry : Registry} {book : AddressBook} {j j' : Json}

private theorem agree_member {α : Type} {R : Json → Json → Prop} {members members' : Members Json}
    {key : String} (h : Option.Rel R (members.get? key) (members'.get? key))
    {k l : Json → Except Error α} (hk : ∀ i i', R i i' → Agree (k i) (l i')) :
    Agree (Amount.member members key >>= k) (Amount.member members' key >>= l) := by
  unfold Amount.member
  cases hget : members.get? key <;> cases hget' : members'.get? key <;> rw [hget, hget'] at h
  · exact .of_error _ _
  · cases h
  · cases h
  · cases h with
    | some hvalue => exact hk _ _ hvalue

/-- Alike objects are the same issued amount. -/
private theorem agree_issuedOfMembers {members members' : Members Json}
    (h : ∀ key, Option.Rel (Json.Alike registry .content .part) (members.get? key)
      (members'.get? key)) :
    Agree (Amount.issuedOfMembers book members) (Amount.issuedOfMembers book members') := by
  unfold Amount.issuedOfMembers
  refine agree_member (h "value") fun _ _ hvalue => ?_
  refine (refuses_issuedValueOfJson.agree hvalue).bind fun value => ?_
  refine agree_member (h "currency") fun _ _ hcurrency => ?_
  refine (refuses_currencyOfJson.agree hcurrency).bind fun currency => ?_
  dsimp only
  split
  · exact .of_error _ _
  · refine agree_member (h "issuer") fun _ _ hissuer => ?_
    exact ((refuses_accountOfJson book).agree hissuer).bind fun _ => .refl _

theorem Amount.agree_ofJson (h : Json.Alike registry .content (.value .amount) j j')
    (hj : j.KeysDistinct) (hj' : j'.KeysDistinct) :
    Agree (Amount.ofJson book j) (Amount.ofJson book j') := by
  cases j <;> cases j'
  case obj.obj members members' =>
    have hrel := h.rel_get? nofun (Json.keysDistinct_obj.1 hj).1 (Json.keysDistinct_obj.1 hj').1
    exact agree_issuedOfMembers hrel
  case arr.arr => exact .of_error _ _
  all_goals
    cases h
    try exact .refl _

/-- Null stands for no value, and of alike values both are null or neither is. -/
private theorem rel_filter_null {role : Role} {o o' : Option Json}
    (h : Option.Rel (Json.Alike registry .content role) o o') :
    Option.Rel (Json.Alike registry .content role) (o.filter fun j => !j.isNull)
      (o'.filter fun j => !j.isNull) := by
  cases h with
  | none => exact .none
  | @some a b halike =>
    rw [Option.filter_some, Option.filter_some, halike.isNull_eq]
    cases b.isNull with
    | true => exact .none
    | false => exact .some halike

/-- Alike objects are the same asset. -/
private theorem agree_issueOfMembers {members members' : Members Json}
    (h : ∀ key, Option.Rel (Json.Alike registry .content .part) (members.get? key)
      (members'.get? key)) :
    Agree (Issue.ofJson book (.obj members)) (Issue.ofJson book (.obj members')) := by
  have hcurrency := h "currency"
  have hissuer := rel_filter_null (h "issuer")
  unfold Issue.ofJson
  dsimp only [Json.obj?]
  cases hget : members.get? "currency" <;> cases hget' : members'.get? "currency" <;>
    rw [hget, hget'] at hcurrency
  · exact .of_error _ _
  · cases hcurrency
  · cases hcurrency
  · cases hcurrency with
    | some hcurrency =>
      refine (refuses_currencyOfJson.agree hcurrency).bind fun currency => ?_
      revert hissuer
      generalize (members.get? "issuer").filter (fun j => !j.isNull) = issuer
      generalize (members'.get? "issuer").filter (fun j => !j.isNull) = issuer'
      intro hissuer
      cases hissuer with
      | none => exact .refl _
      | some hissuer =>
        cases currency.isNative with
        | true => exact .of_error _ _
        | false => exact ((refuses_accountOfJson book).agree hissuer).bind fun _ => .refl _

theorem Issue.agree_ofJson (h : Json.Alike registry .content (.value .issue) j j')
    (hj : j.KeysDistinct) (hj' : j'.KeysDistinct) :
    Agree (Issue.ofJson book j) (Issue.ofJson book j') := by
  cases j <;> cases j'
  case obj.obj members members' =>
    have hrel := h.rel_get? nofun (Json.keysDistinct_obj.1 hj).1 (Json.keysDistinct_obj.1 hj').1
    exact agree_issueOfMembers hrel
  case arr.arr => exact .of_error _ _
  all_goals
    cases h
    try exact .refl _

/-! ### Lists -/

/-- The items of alike lists of parts are alike parts. -/
private theorem exists_pairs {role : Role} (hrole : role.ofItem = .part) {items items' : List Json}
    (h : Json.Alike registry .content role (.arr items) (.arr items'))
    (hj : (Json.arr items).KeysDistinct) (hj' : (Json.arr items').KeysDistinct) :
    ∃ pairs : List (Json × Json), items = pairs.map Prod.fst ∧ items' = pairs.map Prod.snd ∧
      ∀ p ∈ pairs, Json.Alike registry .content .part p.1 p.2 ∧ p.1.KeysDistinct ∧
        p.2.KeysDistinct := by
  cases h with
  | leaf _ hleaf => cases hleaf
  | arr _ pairs hitems =>
    rw [hrole] at hitems
    refine ⟨pairs, rfl, rfl, fun p hp => ⟨hitems p hp, ?_, ?_⟩⟩
    · exact Json.keysDistinct_arr.1 hj _ (List.mem_map_of_mem hp)
    · exact Json.keysDistinct_arr.1 hj' _ (List.mem_map_of_mem hp)

theorem Value.agree_vectorOfJson (h : Json.Alike registry .content (.value .vector256) j j')
    (hj : j.KeysDistinct) (hj' : j'.KeysDistinct) :
    Agree (Value.vectorOfJson j) (Value.vectorOfJson j') := by
  cases j <;> cases j'
  case arr.arr items items' =>
    obtain ⟨pairs, rfl, rfl, hpairs⟩ := exists_pairs rfl h hj hj'
    exact Agree.mapM fun p hp => (refuses_octetsOfJson _ _).agree (hpairs p hp).1
  case obj.obj => exact .of_error _ _
  all_goals
    cases h
    try exact .refl _

private theorem agree_stepMember {α : Type} {convert : Json → Except Error α}
    (hconvert : RefusesContainers convert) {members members' : Members Json} {key : String}
    (h : Option.Rel (Json.Alike registry .content .part) (members.get? key)
      (members'.get? key)) :
    Agree (PathStep.member members key convert) (PathStep.member members' key convert) := by
  unfold PathStep.member
  cases hget : members.get? key <;> cases hget' : members'.get? key <;> rw [hget, hget'] at h
  · exact .refl _
  · cases h
  · cases h
  · cases h with
    | some hvalue => exact (hconvert.agree hvalue).map _

/-- Alike objects are the same step. -/
private theorem agree_pathStep (h : Json.Alike registry .content .part j j')
    (hj : j.KeysDistinct) (hj' : j'.KeysDistinct) :
    Agree (PathStep.ofJson book j) (PathStep.ofJson book j') := by
  cases j <;> cases j'
  case obj.obj members members' =>
    have hrel := h.rel_get? nofun (Json.keysDistinct_obj.1 hj).1 (Json.keysDistinct_obj.1 hj').1
    unfold PathStep.ofJson
    simp only [Json.obj?]
    refine (agree_stepMember (refuses_accountOfJson book) (hrel "account")).bind fun account => ?_
    refine (agree_stepMember refuses_currencyOfJson (hrel "currency")).bind fun currency => ?_
    exact (agree_stepMember (refuses_accountOfJson book) (hrel "issuer")).bind fun _ => .refl _
  case arr.arr => exact .of_error _ _
  all_goals
    cases h
    try exact .refl _

/-- Alike lists of steps are the same path. -/
private theorem agree_path (h : Json.Alike registry .content .part j j')
    (hj : j.KeysDistinct) (hj' : j'.KeysDistinct) :
    Agree (PathSet.pathOfJson book j) (PathSet.pathOfJson book j') := by
  cases j <;> cases j'
  case arr.arr items items' =>
    obtain ⟨pairs, rfl, rfl, hpairs⟩ := exists_pairs rfl h hj hj'
    cases pairs with
    | nil => exact .refl _
    | cons first rest =>
      refine Agree.mapM fun p hp => ?_
      obtain ⟨halike, hp, hp'⟩ := hpairs p hp
      exact agree_pathStep halike hp hp'
  case obj.obj => exact .of_error _ _
  all_goals
    cases h
    try exact .refl _

theorem PathSet.agree_ofJson (h : Json.Alike registry .content (.value .pathSet) j j')
    (hj : j.KeysDistinct) (hj' : j'.KeysDistinct) :
    Agree (PathSet.ofJson book j) (PathSet.ofJson book j') := by
  cases j <;> cases j'
  case arr.arr items items' =>
    obtain ⟨pairs, rfl, rfl, hpairs⟩ := exists_pairs rfl h hj hj'
    cases pairs with
    | nil => exact .refl _
    | cons first rest =>
      refine Agree.mapM fun p hp => ?_
      obtain ⟨halike, hp, hp'⟩ := hpairs p hp
      exact agree_path halike hp hp'
  case obj.obj => exact .of_error _ _
  all_goals
    cases h
    try exact .refl _

/-! ### Leaves -/

/-- Alike values are the same leaf of a kind. -/
theorem Value.agree_leaf {kind : Kind} (h : Json.Alike registry .content (.value kind) j j')
    (hj : j.KeysDistinct) (hj' : j'.KeysDistinct) {result result' : Except Error Value}
    (hresult : leafOfJson? book kind j = some result)
    (hresult' : leafOfJson? book kind j' = some result') : Agree result result' := by
  cases kind <;> cases hresult <;> cases hresult'
  case uint8 | uint16 | uint32 => exact ((refuses_unsignedOfJson _ _).agree h).bind fun _ => .refl _
  case uint64 => exact (refuses_uint64OfJson.agree h).bind fun _ => .refl _
  case hash128 | hash160 | hash256 =>
    exact ((refuses_octetsOfJson _ _).agree h).bind fun _ => .refl _
  case account => exact ((refuses_accountOfJson book).agree h).bind fun _ => .refl _
  case blob => exact (refuses_blobOfJson.agree h).bind fun _ => .refl _
  case amount => exact (Amount.agree_ofJson h hj hj').bind fun _ => .refl _
  case currency => exact (refuses_currencyOfJson.agree h).bind fun _ => .refl _
  case issue => exact (Issue.agree_ofJson h hj hj').bind fun _ => .refl _
  case vector256 => exact (agree_vectorOfJson h hj hj').bind fun _ => .refl _
  case pathSet => exact (PathSet.agree_ofJson h hj hj').bind fun _ => .refl _

end FieldWire
