import FieldWire.Plain.Expansion
import FieldWire.Proofs.Plain.Keys
import Mathlib.Data.List.Nodup

/-!
# What replacing extended addresses does

Replacing the extended addresses in the members of an object inserts members, and which ones is told
by every given member on its own: the digits of its account, and its tag under the key for the tag
(`Plain.replacements`). So `Plain.expand` succeeds if the tag of every address has a place and
agrees with what is given there (`Plain.IsSettled`), and then inserts all replacements in the order
of the members that they come from (`Plain.expand_eq_ok_iff`). Otherwise it stops at the first
member of which that is not so (`Plain.expand_eq_error_iff`).

Two kinds of facts follow. Replacements are texts and numbers, so no key is repeated that was not
repeated before, every new value is a leaf, and keys that have a value keep having one. And where the
book knows no number as an extended address, no two replacements have one key, so that their order
does not count (`Plain.nodup_keys_replacements`).
-/

namespace FieldWire

/-! ### Several insertions -/

namespace Members

variable {β : Type}

/-- Inserts members one after the other. -/
def insertAll (members : Members β) : Members β → Members β
  | [] => members
  | (key, value) :: rest => insertAll (insert key value members) rest

theorem insertAll_append (members first second : Members β) :
    insertAll members (first ++ second) = insertAll (insertAll members first) second := by
  induction first generalizing members with
  | nil => rfl
  | cons m rest ih => exact ih _

/-- What is inserted is the new member, and the others were there. -/
theorem mem_insert {key : String} {value : β} {members : Members β} {m : String × β}
    (h : m ∈ insert key value members) : m = (key, value) ∨ m ∈ members := by
  induction members with
  | nil => exact .inl (List.mem_singleton.1 h)
  | cons first rest ih =>
    obtain ⟨k, v⟩ := first
    rw [insert] at h
    split at h
    · exact (List.mem_cons.1 h).imp_right (List.mem_cons_of_mem _)
    · rcases List.mem_cons.1 h with rfl | h
      · exact .inr List.mem_cons_self
      · exact (ih h).imp_right (List.mem_cons_of_mem _)

theorem mem_insertAll {members inserted : Members β} {m : String × β}
    (h : m ∈ insertAll members inserted) : m ∈ members ∨ m ∈ inserted := by
  induction inserted generalizing members with
  | nil => exact .inl h
  | cons first rest ih =>
    rcases ih h with h | h
    · rcases mem_insert h with rfl | h
      · exact .inr List.mem_cons_self
      · exact .inl h
    · exact .inr (List.mem_cons_of_mem _ h)

theorem nodup_keys_insertAll {members : Members β} (h : members.keys.Nodup)
    (inserted : Members β) : (insertAll members inserted).keys.Nodup := by
  induction inserted generalizing members with
  | nil => exact h
  | cons m rest ih => exact ih (nodup_keys_insert h m.1 m.2)

/-- Keys that are not inserted keep their values. -/
theorem get?_insertAll_of_notMem {members inserted : Members β} {key : String}
    (h : key ∉ inserted.keys) : get? (insertAll members inserted) key = get? members key := by
  induction inserted generalizing members with
  | nil => rfl
  | cons m rest ih =>
    rw [keys, List.map_cons, List.mem_cons, not_or] at h
    rw [insertAll, ih h.2, get?_insert, if_neg (Ne.symm h.1)]

/-- Keys that are inserted once have the inserted values. -/
theorem get?_insertAll_of_mem {members inserted : Members β} (hkeys : inserted.keys.Nodup)
    {key : String} {value : β} (h : (key, value) ∈ inserted) :
    get? (insertAll members inserted) key = some value := by
  induction inserted generalizing members with
  | nil => cases h
  | cons m rest ih =>
    rw [keys, List.map_cons, List.nodup_cons] at hkeys
    rw [insertAll]
    rcases List.mem_cons.1 h with rfl | h
    · rw [get?_insertAll_of_notMem hkeys.1, get?_insert, if_pos rfl]
    · exact ih hkeys.2 h

/-- A condition that the inserted values meet is met at every key where it was. -/
theorem exists_mem_insertAll {P : β → Prop} {members inserted : Members β}
    (hinserted : ∀ m ∈ inserted, P m.2) {m : String × β} (hm : m ∈ members) (hP : P m.2) :
    ∃ value, (m.1, value) ∈ insertAll members inserted ∧ P value := by
  induction inserted generalizing members m with
  | nil => exact ⟨m.2, hm, hP⟩
  | cons first rest ih =>
    obtain ⟨key, value⟩ := first
    obtain ⟨hfirst, hrest⟩ := List.forall_mem_cons.1 hinserted
    suffices hstep : ∃ v, (m.1, v) ∈ insert key value members ∧ P v by
      obtain ⟨v, hv, hPv⟩ := hstep
      exact ih (m := (m.1, v)) hrest hv hPv
    clear ih
    induction members with
    | nil => cases hm
    | cons n others ih =>
      obtain ⟨k, v⟩ := n
      rw [insert]
      rcases List.mem_cons.1 hm with rfl | hm
      · split
        · next hkey => exact ⟨value, by rw [← hkey]; exact List.mem_cons_self, hfirst⟩
        · exact ⟨v, List.mem_cons_self, hP⟩
      · split
        · exact ⟨m.2, List.mem_cons_of_mem _ hm, hP⟩
        · obtain ⟨v', hv', hPv'⟩ := ih hm
          exact ⟨v', List.mem_cons_of_mem _ hv', hPv'⟩

end Members

namespace Members

/-- The value of a key, unless that is null. -/
def present (members : Members Json) (key : String) : Option Json :=
  (members.get? key).filter fun j => !j.isNull

theorem filter_get? (members : Members Json) (key : String) :
    (members.get? key).filter (fun j => !j.isNull) = members.present key := rfl

theorem present_eq_some_iff {members : Members Json} (hkeys : members.keys.Nodup) {key : String}
    {j : Json} : members.present key = some j ↔ (key, j) ∈ members ∧ j.isNull = false := by
  rw [present, Option.filter_eq_some_iff, Bool.not_eq_true']
  exact and_congr_left fun _ => ⟨mem_of_get?_eq_some, get?_eq_some_of_mem hkeys⟩

end Members

/-- The book takes no text that says a number for an extended address. -/
def AddressBook.SparesNumbers (book : AddressBook) : Prop :=
  ∀ text, (Text.uint32? text).isSome = true → book.decodeExtended text = none

namespace Plain

/-! ### Replacements -/

variable {book : AddressBook}

/-- The members that replace a member: none if it is no extended address. -/
def replacements (book : AddressBook) (m : String × Json) : Members Json :=
  match extended? book m.2 with
  | none => []
  | some (account, none) => [(m.1, .str account.toHex)]
  | some (account, some tag) =>
    (m.1, .str account.toHex) ::
      (tagField? m.1).toList.map fun tagField => (tagField, .nat tag.toNat)

/-- The tag that a member carries, if any, has a key, and what is given there says the same. -/
def IsSettled (book : AddressBook) (given : Members Json) (m : String × Json) : Prop :=
  ∀ account tag, extended? book m.2 = some (account, some tag) →
    ∃ tagField, tagField? m.1 = some tagField ∧
      ∀ explicit, given.present tagField = some explicit → tagOfJson? explicit = some tag

/-- What is wrong with the tag of a field: the field has no key for a tag, or what is given under
that key does not say it. -/
def Refuses (given : Members Json) (field : String) (tag : UInt32) : Error → Prop
  | .unexpectedTag name => name = field ∧ tagField? field = none
  | .mismatchedTag name tagField expanded explicit =>
    name = field ∧ expanded = tag ∧ tagField? field = some tagField ∧
      given.present tagField = some explicit ∧ tagOfJson? explicit ≠ some tag
  | _ => False

variable {given members result : Members Json} {rest : List (String × Json)} {m : String × Json}
  {e : Error}

private theorem insertTag_eq_ok_iff {field : String} {tag : UInt32} :
    insertTag given field tag members = .ok result ↔
      ∃ tagField, tagField? field = some tagField ∧
        (∀ explicit, given.present tagField = some explicit → tagOfJson? explicit = some tag) ∧
        Members.insert tagField (.nat tag.toNat) members = result := by
  unfold insertTag
  cases tagField? field with
  | none => simp
  | some tagField =>
    simp only [Members.filter_get?, Option.some.injEq, exists_eq_left']
    cases given.present tagField with
    | none => simp
    | some explicit => by_cases htag : tagOfJson? explicit = some tag <;> simp [htag]

private theorem insertTag_eq_error_iff {field : String} {tag : UInt32} :
    insertTag given field tag members = .error e ↔ Refuses given field tag e := by
  unfold insertTag
  cases htagField : tagField? field with
  | none => cases e <;> simp [Refuses, htagField, eq_comm]
  | some tagField =>
    simp only [Members.filter_get?]
    cases hgiven : given.present tagField with
    | none => cases e <;> grind [Refuses]
    | some explicit =>
      by_cases htag : tagOfJson? explicit = some tag <;> cases e <;> grind [Refuses]

private theorem not_isSettled_of_refuses {account : AccountId} {tag : UInt32}
    (hextended : extended? book m.2 = some (account, some tag)) (h : Refuses given m.1 tag e) :
    ¬IsSettled book given m := by
  intro hsettled
  obtain ⟨tagField, htagField, hagrees⟩ := hsettled account tag hextended
  have hok : insertTag given m.1 tag [] = .ok _ :=
    insertTag_eq_ok_iff.2 ⟨tagField, htagField, hagrees, rfl⟩
  rw [insertTag_eq_error_iff.2 h] at hok
  cases hok

private theorem isSettled_or_refuses (book : AddressBook) (given : Members Json)
    (m : String × Json) : IsSettled book given m ∨ ∃ account tag e,
      extended? book m.2 = some (account, some tag) ∧ Refuses given m.1 tag e := by
  by_cases h : ∃ account tag, extended? book m.2 = some (account, some tag)
  · obtain ⟨account, tag, hextended⟩ := h
    cases hinsert : insertTag given m.1 tag [] with
    | error e => exact .inr ⟨account, tag, e, hextended, insertTag_eq_error_iff.1 hinsert⟩
    | ok members =>
      obtain ⟨tagField, htagField, hagrees, -⟩ := insertTag_eq_ok_iff.1 hinsert
      refine .inl fun account' tag' h => ?_
      rw [hextended] at h
      cases h
      exact ⟨tagField, htagField, hagrees⟩
  · exact .inl fun account tag hextended => absurd ⟨account, tag, hextended⟩ h

/-- A settled member is replaced. -/
private theorem expandFrom_cons_of_isSettled (h : IsSettled book given m) :
    expandFrom book given members (m :: rest) =
      expandFrom book given (members.insertAll (replacements book m)) rest := by
  obtain ⟨field, j⟩ := m
  rw [expandFrom, replacements]
  cases hextended : extended? book j with
  | none => rfl
  | some found =>
    obtain ⟨account, tag⟩ := found
    cases tag with
    | none => rfl
    | some tag =>
      obtain ⟨tagField, htagField, hagrees⟩ := h account tag hextended
      dsimp only
      rw [insertTag_eq_ok_iff.2 ⟨tagField, htagField, hagrees, rfl⟩, htagField]
      rfl

/-- A member that is not settled ends it. -/
private theorem expandFrom_cons_of_refuses {account : AccountId} {tag : UInt32}
    (hextended : extended? book m.2 = some (account, some tag)) (h : Refuses given m.1 tag e) :
    expandFrom book given members (m :: rest) = .error e := by
  obtain ⟨field, j⟩ := m
  rw [expandFrom, hextended]
  dsimp only
  rw [insertTag_eq_error_iff.2 h]

private theorem expandFrom_eq_ok_iff : expandFrom book given members rest = .ok result ↔
    (∀ m ∈ rest, IsSettled book given m) ∧
      result = members.insertAll (rest.flatMap (replacements book)) := by
  induction rest generalizing members with
  | nil => simp [expandFrom, Members.insertAll, eq_comm]
  | cons m rest ih =>
    obtain hsettled | ⟨account, tag, e, hextended, hrefuses⟩ := isSettled_or_refuses book given m
    · rw [expandFrom_cons_of_isSettled hsettled, ih, List.forall_mem_cons, List.flatMap_cons,
        Members.insertAll_append, and_iff_right hsettled]
    · rw [expandFrom_cons_of_refuses hextended hrefuses]
      refine ⟨nofun, fun h => ?_⟩
      exact absurd (h.1 m List.mem_cons_self) (not_isSettled_of_refuses hextended hrefuses)

private theorem expandFrom_eq_error_iff : expandFrom book given members rest = .error e ↔
    ∃ before m after account tag, rest = before ++ m :: after ∧
      (∀ n ∈ before, IsSettled book given n) ∧
      extended? book m.2 = some (account, some tag) ∧ Refuses given m.1 tag e := by
  constructor
  · intro h
    induction rest generalizing members with
    | nil => cases h
    | cons m rest ih =>
      obtain hsettled | ⟨account, tag, e', hextended, hrefuses⟩ := isSettled_or_refuses book given m
      · rw [expandFrom_cons_of_isSettled hsettled] at h
        obtain ⟨before, n, after, account, tag, rfl, hbefore, hn⟩ := ih h
        exact ⟨m :: before, n, after, account, tag, rfl,
          List.forall_mem_cons.2 ⟨hsettled, hbefore⟩, hn⟩
      · rw [expandFrom_cons_of_refuses hextended hrefuses] at h
        cases h
        exact ⟨[], m, rest, account, tag, rfl, List.forall_mem_nil _, hextended, hrefuses⟩
  · rintro ⟨before, m, after, account, tag, rfl, hbefore, hextended, hrefuses⟩
    induction before generalizing members with
    | nil => exact expandFrom_cons_of_refuses hextended hrefuses
    | cons n before ih =>
      obtain ⟨hn, hbefore⟩ := List.forall_mem_cons.1 hbefore
      rw [List.cons_append, expandFrom_cons_of_isSettled hn]
      exact ih hbefore

/-- Addresses are replaced if all tags are settled, and then every member is replaced. -/
theorem expand_eq_ok_iff : expand book given = .ok result ↔
    (∀ m ∈ given, IsSettled book given m) ∧
      result = given.insertAll (given.flatMap (replacements book)) :=
  expandFrom_eq_ok_iff

/-- Otherwise the first member that is not settled tells what is wrong. -/
theorem expand_eq_error_iff : expand book given = .error e ↔
    ∃ before m after account tag, given = before ++ m :: after ∧
      (∀ n ∈ before, IsSettled book given n) ∧
      extended? book m.2 = some (account, some tag) ∧ Refuses given m.1 tag e :=
  expandFrom_eq_error_iff

/-! ### What stays -/

/-- Replacements are texts and numbers. -/
theorem leaf_of_mem_replacements {m r : String × Json} (h : r ∈ replacements book m) :
    r.2.isContainer = false ∧ r.2.isNull = false := by
  unfold replacements at h
  split at h
  · cases h
  · obtain rfl := List.mem_singleton.1 h
    exact ⟨rfl, rfl⟩
  · rcases List.mem_cons.1 h with rfl | h
    · exact ⟨rfl, rfl⟩
    · obtain ⟨tagField, -, rfl⟩ := List.mem_map.1 h
      exact ⟨rfl, rfl⟩

private theorem leaf_of_mem_flatMap {r : String × Json}
    (h : r ∈ given.flatMap (replacements book)) : r.2.isContainer = false ∧ r.2.isNull = false := by
  obtain ⟨m, -, hr⟩ := List.mem_flatMap.1 h
  exact leaf_of_mem_replacements hr

/-- Keys stay different. -/
theorem nodup_keys_expand (h : expand book given = .ok result) (hkeys : given.keys.Nodup) :
    result.keys.Nodup := by
  rw [(expand_eq_ok_iff.1 h).2]
  exact Members.nodup_keys_insertAll hkeys _

/-- A member was given, or it is new and neither null nor made of other values. -/
theorem mem_of_expand (h : expand book given = .ok result) {m : String × Json} (hm : m ∈ result) :
    m ∈ given ∨ (m.2.isContainer = false ∧ m.2.isNull = false) := by
  rw [(expand_eq_ok_iff.1 h).2] at hm
  exact (Members.mem_insertAll hm).imp_right leaf_of_mem_flatMap

/-- A key that has a value keeps having one. -/
theorem exists_mem_of_expand (h : expand book given = .ok result) {m : String × Json}
    (hm : m ∈ given) (hnull : m.2.isNull = false) :
    ∃ j, (m.1, j) ∈ result ∧ j.isNull = false := by
  rw [(expand_eq_ok_iff.1 h).2]
  exact Members.exists_mem_insertAll (P := fun j => j.isNull = false)
    (fun r hr => (leaf_of_mem_flatMap hr).2) hm hnull

/-! ### What the order does not change -/

/-- The member for a tag belongs to one field, which is another one. -/
private theorem eq_of_tagField? {f g key : String} (hf : tagField? f = some key)
    (hg : tagField? g = some key) : f = g := by
  unfold tagField? at hf hg
  grind

private theorem tagField?_ne {field tagField : String} (h : tagField? field = some tagField) :
    tagField ≠ field := by
  unfold tagField? at h
  grind

/-- A replaced member is an extended address; its key is replaced, or the one for its tag is. -/
theorem of_mem_keys_replacements {m : String × Json} {key : String}
    (h : key ∈ Members.keys (replacements book m)) : ∃ account tag,
      extended? book m.2 = some (account, tag) ∧
        (key = m.1 ∨ tagField? m.1 = some key ∧ tag.isSome = true) := by
  obtain ⟨r, hr, rfl⟩ := List.mem_map.1 h
  unfold replacements at hr
  split at hr
  · cases hr
  · next account hextended =>
    obtain rfl := List.mem_singleton.1 hr
    exact ⟨account, none, hextended, .inl rfl⟩
  · next account tag hextended =>
    refine ⟨account, some tag, hextended, ?_⟩
    rcases List.mem_cons.1 hr with rfl | hr
    · exact .inl rfl
    · obtain ⟨tagField, htagField, rfl⟩ := List.mem_map.1 hr
      exact .inr ⟨Option.mem_toList.1 htagField, rfl⟩

private theorem nodup_keys_of_member (m : String × Json) :
    (Members.keys (replacements book m)).Nodup := by
  unfold replacements
  split
  · exact List.nodup_nil
  · exact List.pairwise_singleton _ _
  · cases htagField : tagField? m.1 with
    | none => exact List.pairwise_singleton _ _
    | some tagField =>
      have hne := tagField?_ne htagField
      simp [Members.keys, Ne.symm hne]

/-- The key for the tag of an address is not that of another address. -/
private theorem ne_of_tagField? (hbook : book.SparesNumbers) (hkeys : given.keys.Nodup)
    {m n : String × Json} (hsettled : IsSettled book given m) (hn : n ∈ given)
    {account account' : AccountId} {tag : UInt32} {tag' : Option UInt32}
    (hm : extended? book m.2 = some (account, some tag))
    (hextended : extended? book n.2 = some (account', tag')) {tagField : String}
    (htagField : tagField? m.1 = some tagField) : n.1 ≠ tagField := by
  rintro rfl
  obtain ⟨key, hkey, hagrees⟩ := hsettled account tag hm
  cases htagField.symm.trans hkey
  obtain ⟨field, j⟩ := n
  obtain ⟨text, htext, hdecode⟩ := Option.bind_eq_some_iff.1 hextended
  have hj : j = .str text := by
    cases j <;> cases htext
    rfl
  subst hj
  -- what is given under the key must say the tag, and so it is no address
  have hsaid : Text.uint32? text = some tag :=
    hagrees _ ((Members.present_eq_some_iff hkeys).2 ⟨hn, rfl⟩)
  rw [hbook text (by rw [hsaid]; rfl)] at hdecode
  cases hdecode

/-- If all tags are settled, different replacements have different keys. -/
theorem nodup_keys_replacements (hbook : book.SparesNumbers) (hkeys : given.keys.Nodup)
    (hsettled : ∀ m ∈ given, IsSettled book given m) :
    (Members.keys (given.flatMap (replacements book))).Nodup := by
  have hflat : Members.keys (given.flatMap (replacements book)) =
      given.flatMap fun m => Members.keys (replacements book m) := List.map_flatMap
  rw [hflat, List.nodup_flatMap]
  refine ⟨fun m _ => nodup_keys_of_member m, ?_⟩
  refine (List.pairwise_map.1 hkeys).imp_of_mem fun {m n} hm hn hne => ?_
  intro key hkeym hkeyn
  obtain ⟨account, tag, hextended, hcase⟩ := of_mem_keys_replacements hkeym
  obtain ⟨account', tag', hextended', hcase'⟩ := of_mem_keys_replacements hkeyn
  rcases hcase with rfl | ⟨htagField, htag⟩ <;> rcases hcase' with hkey | ⟨htagField', htag'⟩
  · exact hne hkey
  · obtain ⟨tag', rfl⟩ := Option.isSome_iff_exists.1 htag'
    exact ne_of_tagField? hbook hkeys (hsettled n hn) hm hextended' hextended htagField' rfl
  · obtain ⟨tag, rfl⟩ := Option.isSome_iff_exists.1 htag
    exact ne_of_tagField? hbook hkeys (hsettled m hm) hn hextended hextended' htagField hkey.symm
  · exact hne (eq_of_tagField? htagField htagField')

/-- A replaced key has its replacement, and every other key keeps its value. -/
theorem present_expand (hbook : book.SparesNumbers) (hkeys : given.keys.Nodup)
    (h : expand book given = .ok result) (key : String) :
    (∀ j, (key, j) ∈ given.flatMap (replacements book) → result.present key = some j) ∧
      (key ∉ Members.keys (given.flatMap (replacements book)) →
        result.present key = given.present key) := by
  obtain ⟨hsettled, rfl⟩ := expand_eq_ok_iff.1 h
  have hnodup := nodup_keys_replacements hbook hkeys hsettled
  refine ⟨fun j hj => ?_, fun hkey => ?_⟩
  · rw [Members.present, Members.get?_insertAll_of_mem hnodup hj, Option.filter_some,
      (leaf_of_mem_flatMap hj).2]
    rfl
  · rw [Members.present, Members.get?_insertAll_of_notMem hkey]
    rfl

end Plain

end FieldWire
