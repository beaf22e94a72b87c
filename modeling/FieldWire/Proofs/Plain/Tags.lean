import FieldWire.Proofs.Asset
import FieldWire.Proofs.Plain.Complete
import FieldWire.Proofs.Plain.Levels

/-!
# Extended addresses and tags that are written out

An extended address is short for two members: the digits of its account, and its tag under the key
for the tag. `Plain.IsExpansion` says of an object what it is when all of them are written out, by
its keys alone: digits at every extended address, a number at the key for every tag, and the given
value everywhere else. That this describes the outcome, in whatever order the members stand, takes a
book that reads no number as an extended address; otherwise the key for a tag could hold an address
as well.

* When addresses are replaced (`Plain.isSettled_iff`): every tag belongs to an account or a
  destination, and what is given under the key for the tag is absent, null, or says this tag, as a
  whole number or in a text of one (`Json.SaysTag`).
* What happens otherwise (`Plain.refuses_iff`): the first member of which that is not so is named,
  with the key for the tag and what was given there if it has one.
* What comes out (`Plain.isExpansion_of_expand`), and that nothing is left to replace in it
  (`Plain.extended?_of_isExpansion`) if the digits of an account are not an extended address
  themselves.

**`Plain.expand_exact`** puts these together. In particular an object with extended addresses and the
one with their tags written out are read alike, with every registry.
-/

namespace FieldWire

/-- The value says the tag: it is the number, or a text that is read as the number. -/
def Json.SaysTag (j : Json) (tag : UInt32) : Prop :=
  j = .nat tag.toNat ∨ ∃ text, j = .str text ∧ Text.uint32? text = some tag

/-- The book takes no digits of an account for an extended address. -/
def AddressBook.SparesDigits (book : AddressBook) : Prop :=
  ∀ account : AccountId, book.decodeExtended account.toHex = none

namespace Plain

/-- The field has a tag, which stands under the key. -/
def IsTagField (field key : String) : Prop :=
  (field = "Account" ∧ key = "SourceTag") ∨ (field = "Destination" ∧ key = "DestinationTag")

/-- The field has a tag, and nothing that is given under its key says otherwise. -/
def HasRoom (given : Members Json) (field : String) (tag : UInt32) : Prop :=
  ∃ key, IsTagField field key ∧
    (given.get? key = none ∨ given.get? key = some .null ∨
      ∃ j, given.get? key = some j ∧ j.SaysTag tag)

/-- What is reported of a tag that has no room. -/
inductive Unplaced (given : Members Json) (field : String) (tag : UInt32) : Error → Prop
  /-- The field has no tag. -/
  | unexpected (h : ∀ key, ¬IsTagField field key) : Unplaced given field tag (.unexpectedTag field)
  /-- What is given under the key for the tag says otherwise. -/
  | mismatched {key : String} {j : Json} (hkey : IsTagField field key)
      (hgiven : given.get? key = some j) (hnull : j ≠ .null) (hother : ¬j.SaysTag tag) :
      Unplaced given field tag (.mismatchedTag field key tag j)

/-- The members are the given ones with all extended addresses written out. -/
structure IsExpansion (book : AddressBook) (given result : Members Json) : Prop where
  /-- No key is repeated. -/
  nodup_keys : result.keys.Nodup
  /-- An extended address is written out as the digits of its account. -/
  account : ∀ m ∈ given, ∀ account tag, extended? book m.2 = some (account, tag) →
    result.get? m.1 = some (.str account.toHex)
  /-- Its tag stands under the key for it, as a number. -/
  tag : ∀ m ∈ given, ∀ account tag, extended? book m.2 = some (account, some tag) →
    ∀ key, IsTagField m.1 key → result.get? key = some (.nat tag.toNat)
  /-- Everything else is as it was given. -/
  other : ∀ key,
    (∀ m ∈ given, ∀ account tag, extended? book m.2 = some (account, tag) →
      key ≠ m.1 ∧ (tag.isSome = true → ¬IsTagField m.1 key)) →
    result.get? key = given.get? key

variable {book : AddressBook} {given result : Members Json}

/-! ### When addresses are replaced -/

theorem tagField?_eq_some_iff {field key : String} :
    tagField? field = some key ↔ IsTagField field key := by
  unfold tagField? IsTagField
  grind

private theorem uint64?_eq_some_iff {n : Number} {k : Nat} :
    n.uint64? = some k ↔ n = .int k ∧ k ≤ Text.maxUInt64 := by
  cases n with
  | int n =>
    simp only [Number.uint64?, Option.ite_none_right_eq_some, Option.some.injEq, Number.int.injEq]
    omega
  | real x => simp [Number.uint64?]

theorem tagOfJson?_eq_some_iff {j : Json} {tag : UInt32} :
    tagOfJson? j = some tag ↔ j.SaysTag tag := by
  cases j with
  | num n =>
    have hnumber : (Json.num n).SaysTag tag ↔ n = .int tag.toNat := by simp [Json.SaysTag, Json.nat]
    rw [hnumber]
    simp only [tagOfJson?, Option.bind_eq_some_iff, uint64?_eq_some_iff,
      Option.ite_none_right_eq_some, Option.some.injEq]
    constructor
    · rintro ⟨k, ⟨rfl, -⟩, hle, rfl⟩
      rw [UInt32.toNat_ofNat_of_lt' (Nat.lt_succ_of_le hle)]
    · rintro rfl
      have hle : tag.toNat ≤ Text.maxUInt32 := Nat.le_of_lt_succ tag.toNat_lt
      exact ⟨tag.toNat, ⟨rfl, Nat.le_trans hle (by decide)⟩, hle, UInt32.ofNat_toNat⟩
  | str text => simp [tagOfJson?, Json.SaysTag, Json.nat]
  | null | bool _ | arr _ | obj _ => simp [tagOfJson?, Json.SaysTag, Json.nat]

/-- A tag is settled exactly if it has room. -/
theorem isSettled_iff {m : String × Json} : IsSettled book given m ↔
    ∀ account tag, extended? book m.2 = some (account, some tag) → HasRoom given m.1 tag := by
  refine forall_congr' fun account => forall_congr' fun tag => imp_congr_right fun _ => ?_
  refine exists_congr fun key => and_congr tagField?_eq_some_iff ?_
  simp only [tagOfJson?_eq_some_iff, Members.present]
  cases given.get? key with
  | none => simp
  | some j => cases j <;> simp [Json.isNull, Json.SaysTag, Json.nat]

/-- What is reported of a member is that its tag has no room. -/
theorem refuses_iff {field : String} {tag : UInt32} {e : Error} :
    Refuses given field tag e ↔ Unplaced given field tag e := by
  constructor
  · intro h
    cases e with
    | unexpectedTag name =>
      obtain ⟨rfl, hnone⟩ := h
      refine .unexpected fun key hkey => ?_
      rw [tagField?_eq_some_iff.2 hkey] at hnone
      cases hnone
    | mismatchedTag name key expanded j =>
      obtain ⟨rfl, rfl, hkey, hgiven, hother⟩ := h
      obtain ⟨hgiven, hnull⟩ := Option.filter_eq_some_iff.1 hgiven
      refine .mismatched (tagField?_eq_some_iff.1 hkey) hgiven ?_
        fun h => hother (tagOfJson?_eq_some_iff.2 h)
      rintro rfl
      cases hnull
    | _ => cases h
  · rintro (hnone | ⟨hkey, hgiven, hnull, hother⟩)
    · refine ⟨rfl, Option.eq_none_iff_forall_ne_some.2 fun key hkey => ?_⟩
      exact hnone key (tagField?_eq_some_iff.1 hkey)
    · refine ⟨rfl, rfl, tagField?_eq_some_iff.2 hkey, Option.filter_eq_some_iff.2 ⟨hgiven, ?_⟩,
        fun h => hother (tagOfJson?_eq_some_iff.1 h)⟩
      grind [Json.isNull]

/-! ### What comes out -/

/-- The outcome has every extended address written out. -/
theorem isExpansion_of_expand (hbook : book.SparesNumbers) (hkeys : given.keys.Nodup)
    (h : expand book given = .ok result) : IsExpansion book given result := by
  obtain ⟨hsettled, rfl⟩ := expand_eq_ok_iff.1 h
  have hreplaced := nodup_keys_replacements hbook hkeys hsettled
  -- no two replacements have one key, so every replacement is found under its own
  have hget : ∀ m ∈ given, ∀ r ∈ replacements book m,
      (given.insertAll (given.flatMap (replacements book))).get? r.1 = some r.2 :=
    fun m hm r hr =>
      Members.get?_insertAll_of_mem hreplaced (List.mem_flatMap.2 ⟨m, hm, hr⟩)
  refine ⟨nodup_keys_expand h hkeys, fun m hm account tag hextended => ?_,
    fun m hm account tag hextended key hkey => ?_, fun key hother => ?_⟩
  · refine hget m hm (m.1, .str account.toHex) ?_
    rw [replacements, hextended]
    cases tag <;> exact List.mem_cons_self
  · refine hget m hm (key, .nat tag.toNat) ?_
    rw [replacements, hextended]
    dsimp only
    rw [tagField?_eq_some_iff.2 hkey]
    exact List.mem_cons_of_mem _ List.mem_cons_self
  · refine Members.get?_insertAll_of_notMem fun hmem => ?_
    obtain ⟨r, hr, rfl⟩ := List.mem_map.1 hmem
    obtain ⟨m, hm, hr⟩ := List.mem_flatMap.1 hr
    obtain ⟨account, tag, hextended, hkey⟩ := of_mem_keys_replacements (List.mem_map_of_mem hr)
    obtain ⟨hne, hroom⟩ := hother m hm account tag hextended
    rcases hkey with hkey | ⟨hkey, htag⟩
    · exact hne hkey
    · exact hroom htag (tagField?_eq_some_iff.1 hkey)

/-- Where addresses are written out, none are left. -/
theorem extended?_of_isExpansion (hdigits : book.SparesDigits) (h : IsExpansion book given result)
    {m : String × Json} (hm : m ∈ result) : extended? book m.2 = none := by
  have hget : result.get? m.1 = some m.2 := Members.get?_eq_some_of_mem h.nodup_keys hm
  by_cases haddress : ∃ n ∈ given, ∃ account tag, extended? book n.2 = some (account, tag) ∧
      (m.1 = n.1 ∨ tag.isSome = true ∧ IsTagField n.1 m.1)
  · obtain ⟨n, hn, account, tag, hextended, hkey | ⟨htag, hkey⟩⟩ := haddress
    · rw [hkey, h.account n hn account tag hextended] at hget
      rw [← Option.some.inj hget]
      exact hdigits account
    · obtain ⟨tag, rfl⟩ := Option.isSome_iff_exists.1 htag
      rw [h.tag n hn account tag hextended m.1 hkey] at hget
      rw [← Option.some.inj hget]
      rfl
  · -- the member was given as it is, and so it is no extended address itself
    have hgiven : result.get? m.1 = given.get? m.1 := by
      refine h.other m.1 fun n hn account tag hextended => ⟨fun hkey => ?_, fun htag hkey => ?_⟩
      · exact haddress ⟨n, hn, account, tag, hextended, .inl hkey⟩
      · exact haddress ⟨n, hn, account, tag, hextended, .inr ⟨htag, hkey⟩⟩
    refine Option.eq_none_iff_forall_ne_some.2 fun found hfound => haddress ?_
    have hmem : m ∈ given := Members.mem_of_get?_eq_some (hgiven.symm.trans hget)
    exact ⟨m, hmem, found.1, found.2, hfound, .inl rfl⟩

/-- Members without extended addresses stay as they are. -/
theorem expand_of_forall_none (h : ∀ m ∈ given, extended? book m.2 = none) :
    expand book given = .ok given := by
  have hnone : given.flatMap (replacements book) = [] := by
    refine List.flatMap_eq_nil_iff.2 fun m hm => ?_
    rw [replacements, h m hm]
  refine expand_eq_ok_iff.2 ⟨fun m hm account tag hextended => ?_, ?_⟩
  · rw [h m hm] at hextended
    cases hextended
  · rw [hnone]
    rfl

/-- **Replacing addresses is writing them out.** With a book that reads no number as an extended
address, the addresses of an object without repeated keys are replaced exactly if every tag has
room; otherwise the first tag that has none is reported. What comes out has all addresses written
out, and if the book reads no digits of an account as an extended address, then it stays as it is,
and is read as the same object as what was given. -/
theorem expand_exact (hbook : book.SparesNumbers) (hkeys : given.keys.Nodup) :
    ((∃ result, expand book given = .ok result) ↔
      ∀ m ∈ given, ∀ account tag, extended? book m.2 = some (account, some tag) →
        HasRoom given m.1 tag) ∧
    (∀ e, expand book given = .error e ↔
      ∃ before m after account tag, given = before ++ m :: after ∧
        (∀ n ∈ before, ∀ account tag, extended? book n.2 = some (account, some tag) →
          HasRoom given n.1 tag) ∧
        extended? book m.2 = some (account, some tag) ∧ Unplaced given m.1 tag e) ∧
    ∀ result, expand book given = .ok result →
      IsExpansion book given result ∧
      (book.SparesDigits →
        expand book result = .ok result ∧
        ∀ registry onlySigning, Object.ofJson ⟨registry, book⟩ onlySigning (.obj given) =
          Object.ofJson ⟨registry, book⟩ onlySigning (.obj result)) := by
  refine ⟨?_, fun e => ?_, fun result h => ?_⟩
  · simp only [expand_eq_ok_iff, exists_and_left, exists_eq, and_true, isSettled_iff]
  · simp only [expand_eq_error_iff, isSettled_iff, refuses_iff]
  · have hexpansion := isExpansion_of_expand hbook hkeys h
    refine ⟨hexpansion, fun hdigits => ?_⟩
    have hagain : expand book result = .ok result :=
      expand_of_forall_none fun m hm => extended?_of_isExpansion hdigits hexpansion hm
    refine ⟨hagain, fun registry onlySigning => ?_⟩
    rw [Object.ofJson_eq, Object.ofJson_eq, objectWith, objectWith]
    dsimp only [Json.obj?]
    rw [h, hagain]

end Plain

namespace Transfer

/-- The digits of an account are too many for the extended address. -/
theorem sparesDigits_book : book.SparesDigits := by
  intro account
  refine if_neg fun heq => ?_
  have hlength := Currency.length_toList_toHex account
  rw [heq] at hlength
  exact absurd hlength (by decide)

/-- An extended address beside its tag, which is given as a text. -/
def tagged : Members Json := [("SourceTag", .str "+07"), ("Account", .str "X7")]

/-- The account and its tag as a number. -/
def writtenOut : Members Json := [("SourceTag", .nat 7), ("Account", .str account.toHex)]

end Transfer

/-- A transfer from an extended address, and a tag that a destination does not take. -/
theorem Plain.expand_transfer :
    (expand Transfer.book Transfer.tagged = .ok Transfer.writtenOut ∧
      IsExpansion Transfer.book Transfer.tagged Transfer.writtenOut ∧
      expand Transfer.book Transfer.writtenOut = .ok Transfer.writtenOut ∧
      Object.ofJson Transfer.context true (.obj Transfer.tagged) =
        Object.ofJson Transfer.context true (.obj Transfer.writtenOut)) ∧
    expand Transfer.book [("Destination", .str "X7"), ("DestinationTag", .nat 8)] =
      .error (.mismatchedTag "Destination" "DestinationTag" 7 (.nat 8)) := by
  have hgiven : expand Transfer.book Transfer.tagged = .ok Transfer.writtenOut := by rfl
  have hother : expand Transfer.book [("Destination", .str "X7"), ("DestinationTag", .nat 8)] =
      .error (.mismatchedTag "Destination" "DestinationTag" 7 (.nat 8)) := by rfl
  have hkeys : Transfer.tagged.keys.Nodup := by decide
  obtain ⟨hexpansion, hread⟩ :=
    (expand_exact Transfer.sparesNumbers_book hkeys).2.2 Transfer.writtenOut hgiven
  obtain ⟨hagain, hsame⟩ := hread Transfer.sparesDigits_book
  exact ⟨⟨hgiven, hexpansion, hagain, hsame Transfer.registry true⟩, hother⟩

end FieldWire
