import FieldWire.Proofs.Plain.Order

/-!
# Objects hold what plain objects say

The object that is read from a plain object is told by its members, after extended addresses are
replaced: it has one field for every member that is kept, no other fields, and it has them by their
sort keys, which increase strictly. A member is kept if it is not null and its field is written
(`Registry.keeps`). Members that are not null must name a field, and no end marker, whether they are
kept or not. That is what `Plain.IsLevel` says of one level.

It holds at every level, of objects in fields and of those around which an array is built
(`Object.captures_of_ofJson`). The value of a field is of the kind of the field, so that a field for
an object does hold one, and a field for an array one element for each item of a list. Where only
signing fields are wanted, that concerns the outermost object alone; objects inside keep all written
fields.
-/

namespace FieldWire

/-! ### One level -/

namespace Registry

/-- Whether a member becomes a field: it is not null and names a written field, and that is one that
signatures cover if only such fields are wanted. -/
def keeps (registry : Registry) (onlySigning : Bool) (m : String × Json) : Bool :=
  !m.2.isNull && (registry.fieldByName m.1).toOption.any fun f =>
    f.serialized && (!onlySigning || f.signing)

/-- The member is null or names a field, which is no end marker. -/
def Knows (registry : Registry) (m : String × Json) : Prop :=
  m.2.isNull = false → ∃ f, registry.fieldByName m.1 = .ok f ∧ f.isMarker = false

end Registry

namespace Plain

/-- The fields are those of a plain object at one level; `members` are its members after extended
addresses are replaced. -/
structure IsLevel (context : Context) (onlySigning : Bool) (j : Json) (members : Members Json)
    (fields : Object) : Prop where
  /-- The value is an object with known members. -/
  expand : ∃ given, j = .obj given ∧ Plain.expand context.addresses given = .ok members ∧
    ∀ m ∈ given, context.registry.Knows m
  /-- Members are known after the replacement, too. -/
  knows : ∀ m ∈ members, context.registry.Knows m
  /-- The fields are those of the registry. -/
  fieldByName : ∀ p ∈ fields, context.registry.fieldByName p.1.name = .ok p.1
  /-- The fields have the names of the members that are kept, each of them once. -/
  perm : (fields.map fun p => p.1.name).Perm
    (Members.keys (members.filter (context.registry.keeps onlySigning)))
  /-- The sort keys increase. -/
  increasing : fields.Pairwise fun p q => p.1.ordinal < q.1.ordinal

variable {context : Context} {convert : Kind → Json → Except Error Value} {onlySigning : Bool}

/-- A member that has an outcome is known, and it is kept if it becomes a field. -/
private theorem keeps_of_fieldOfMember {m : String × Json} {found : Option (Field × Value)}
    (h : fieldOfMember context convert onlySigning m = .ok found) :
    context.registry.Knows m ∧ context.registry.keeps onlySigning m = found.isSome := by
  unfold Registry.Knows Registry.keeps
  cases found with
  | none =>
    obtain hnull | ⟨f, hfield, hmarker, hskip⟩ := fieldOfMember_eq_none_iff.1 h
    · exact ⟨fun hgiven => absurd (hnull.symm.trans hgiven) nofun, by simp [hnull]⟩
    · refine ⟨fun _ => ⟨f, hfield, hmarker⟩, ?_⟩
      obtain hwritten | ⟨rfl, hsigning⟩ := hskip
      · simp [hfield, Except.toOption, hwritten]
      · simp [hfield, Except.toOption, hsigning]
  | some p =>
    obtain ⟨hnull, hfield, hmarker, hwritten, hsigning, -⟩ := fieldOfMember_eq_some_iff.1 h
    refine ⟨fun _ => ⟨p.1, hfield, hmarker⟩, ?_⟩
    cases onlySigning <;> simp_all [Except.toOption]

/-- The fields that are collected have the names of the members that are kept. -/
private theorem names_of_collect {members : Members Json} {collected : Object}
    (h : collect (fieldOfMember context convert onlySigning) members = .ok collected) :
    (∀ m ∈ members, context.registry.Knows m) ∧ (collected.map fun p => p.1.name) =
      Members.keys (members.filter (context.registry.keeps onlySigning)) := by
  obtain ⟨found, hfound, rfl⟩ := collect_eq_ok_iff.1 h
  clear h
  induction hfound with
  | nil => exact ⟨List.forall_mem_nil _, rfl⟩
  | @cons m o members found hm _ ih =>
    obtain ⟨hknown, hkept⟩ := keeps_of_fieldOfMember hm
    refine ⟨List.forall_mem_cons.2 ⟨hknown, ih.1⟩, ?_⟩
    cases o with
    | none =>
      rw [List.filter_cons_of_neg (by rw [hkept]; exact Bool.false_ne_true)]
      exact ih.2
    | some p =>
      have hname := Registry.name_of_fieldByName (fieldOfMember_eq_some_iff.1 hm).2.1
      rw [List.filter_cons_of_pos hkept, Members.keys, List.map_cons, ← hname]
      exact congrArg _ ih.2

/-- The fields that are collected and sorted make up a level. -/
private theorem isLevel_of_collect (hregistry : context.registry.WellFormed)
    {given members : Members Json} (hkeys : given.keys.Nodup)
    (hexpand : Plain.expand context.addresses given = .ok members) {collected : Object}
    (hcollected : collect (fieldOfMember context convert onlySigning) members = .ok collected) :
    IsLevel context onlySigning (.obj given) members (Object.sorted collected) := by
  obtain ⟨hknown, hnames⟩ := names_of_collect hcollected
  obtain ⟨hwritten, hdifferent⟩ := written_of_collect (nodup_keys_expand hexpand hkeys) hcollected
  have hperm := Object.sorted_perm collected
  refine ⟨⟨given, rfl, hexpand, fun m hm hnull => ?_⟩, hknown, fun p hp => ?_, ?_,
    Object.pairwise_lt_sorted hregistry hwritten hdifferent⟩
  · -- a key keeps having a value when addresses are replaced, and then it must be known
    obtain ⟨j, hj, hnull'⟩ := exists_mem_of_expand hexpand hm hnull
    exact hknown (m.1, j) hj hnull'
  · have hmem := (hwritten p (hperm.mem_iff.1 hp)).1
    exact hregistry.fieldByName_eq_ok_iff.2 ⟨hmem, rfl⟩
  · rw [← hnames]
    exact hperm.map _

end Plain

/-! ### All levels -/

namespace Value

variable (context : Context)

mutual
/-- Objects in the value have the fields that the plain value says. Values without fields or elements
capture anything: which values those are is left to the kinds of fields. -/
def Captures : Value → Json → Prop
  | .object fields, j =>
    ∃ members, Plain.IsLevel context false j members fields ∧ FieldsCapture fields members
  | .array elements, j => ∃ items, j = .arr items ∧ ElementsCapture elements items
  | _, _ => True

/-- The values of fields are of the kinds of their fields and capture those of the members of their
names. -/
def FieldsCapture : List (Field × Value) → Members Json → Prop
  | [], _ => True
  | (f, v) :: rest, members =>
    (v.kind = f.kind ∧ ∃ j, members.get? f.name = some j ∧ Captures v j) ∧
      FieldsCapture rest members

/-- Elements capture items one by one: objects whose one key is the name of a field that can wrap an
element. -/
def ElementsCapture : List (Field × List (Field × Value)) → List Json → Prop
  | [], items => items = []
  | (f, fields) :: rest, items =>
    ∃ inner members behind, items = .obj [(f.name, inner)] :: behind ∧
      context.registry.fieldByName f.name = .ok f ∧ f.isElement = true ∧
      Plain.IsLevel context false inner members fields ∧ FieldsCapture fields members ∧
      ElementsCapture rest behind
end

variable {context}

theorem fieldsCapture_iff_forall {fields : Object} {members : Members Json} :
    FieldsCapture context fields members ↔
      ∀ p ∈ fields, p.2.kind = p.1.kind ∧
        ∃ j, members.get? p.1.name = some j ∧ p.2.Captures context j := by
  induction fields with
  | nil => simp [FieldsCapture]
  | cons p rest ih =>
    obtain ⟨f, v⟩ := p
    rw [FieldsCapture, ih, List.forall_mem_cons]

/-- A value that captures a number has no fields and no elements. -/
private theorem isLeaf_of_captures_int {v : Value} {n : Int} (h : v.Captures context (.int n)) :
    v.IsLeaf := by
  obtain hleaf | ⟨fields, rfl⟩ | ⟨elements, rfl⟩ := v.leaf_or_object_or_array
  · exact hleaf
  · rw [Captures] at h
    obtain ⟨members, hlevel, -⟩ := h
    obtain ⟨given, hgiven, -⟩ := hlevel.expand
    cases hgiven
  · rw [Captures] at h
    obtain ⟨items, hitems, -⟩ := h
    cases hitems

private theorem captures_of_isLeaf {v : Value} (h : v.IsLeaf) (j : Json) :
    v.Captures context j := by
  cases v
  case object => exact absurd rfl h.1
  case array => exact absurd rfl h.2
  all_goals
    rw [Captures]
    · trivial
    · nofun
    · nofun

end Value

/-- The object has exactly the fields that the plain value says, at every level; where only signing
fields are wanted, that concerns the outermost level. -/
def Object.Captures (context : Context) (onlySigning : Bool) (fields : Object) (j : Json) : Prop :=
  ∃ members, Plain.IsLevel context onlySigning j members fields ∧
    Value.FieldsCapture context fields members

namespace Plain

variable {context : Context} {convert : Kind → Json → Except Error Value} {onlySigning : Bool}

/-- An object captures a plain value without repeated keys if the values in it do and are of the
kinds asked for. -/
private theorem captures_of_objectWith (hregistry : context.registry.WellFormed)
    (hconvert : ∀ kind j v, j.KeysDistinct → convert kind j = .ok v →
      v.kind = kind ∧ v.Captures context j)
    {j : Json} (hj : j.KeysDistinct) {fields : Object}
    (h : objectWith context convert onlySigning j = .ok fields) :
    Object.Captures context onlySigning fields j := by
  obtain ⟨given, members, collected, rfl, hexpand, hcollected, rfl⟩ := objectWith_eq_ok_iff.1 h
  obtain ⟨hkeys, hvalues⟩ := Json.keysDistinct_obj.1 hj
  have hkeys' := nodup_keys_expand hexpand hkeys
  refine ⟨members, isLevel_of_collect hregistry hkeys hexpand hcollected,
    Value.fieldsCapture_iff_forall.2 fun p hp => ?_⟩
  obtain ⟨m, hm, hmember⟩ :=
    exists_mem_of_collect hcollected ((Object.sorted_perm collected).mem_iff.1 hp)
  obtain ⟨-, hfield, -, -, -, hvalue⟩ := fieldOfMember_eq_some_iff.1 hmember
  have hget : members.get? p.1.name = some m.2 := by
    rw [Registry.name_of_fieldByName hfield]
    exact Members.get?_eq_some_of_mem hkeys' hm
  have hdistinct : m.2.KeysDistinct := by
    obtain hgiven | ⟨hleaf, -⟩ := mem_of_expand hexpand hm
    · exact hvalues m hgiven
    · exact Json.keysDistinct_of_leaf hleaf
  obtain ⟨j', hj', rfl | ⟨n, rfl⟩⟩ := exists_of_valueOfField hvalue
  · obtain ⟨hkind, hcaptures⟩ := hconvert _ _ _ hdistinct hj'
    exact ⟨hkind, m.2, hget, hcaptures⟩
  · -- the name of a value has been replaced by its code, which no object is read from
    obtain ⟨hkind, hcaptures⟩ := hconvert _ (.int n) _ trivial hj'
    exact ⟨hkind, m.2, hget, Value.captures_of_isLeaf (Value.isLeaf_of_captures_int hcaptures) m.2⟩

/-- Elements capture the items of a plain array if the values in them do and are of the kinds asked
for. -/
private theorem captures_of_arrayWith (hregistry : context.registry.WellFormed)
    (hconvert : ∀ kind j v, j.KeysDistinct → convert kind j = .ok v →
      v.kind = kind ∧ v.Captures context j)
    {items : List Json} (hitems : ∀ item ∈ items, item.KeysDistinct) {elements : List Element}
    (h : arrayWith context convert (.arr items) = .ok elements) :
    Value.ElementsCapture context elements items := by
  obtain ⟨found, hfound, rfl⟩ := collect_eq_ok_iff.1 h
  clear h
  induction hfound with
  | nil => rw [List.filterMap_nil, Value.ElementsCapture]
  | @cons item o items found hitem _ ih =>
    obtain ⟨hdistinct, hrest⟩ := List.forall_mem_cons.1 hitems
    obtain ⟨⟨f, fields⟩, helement, rfl⟩ := map_eq_ok_iff.1 hitem
    obtain ⟨name, inner, rfl, hfield, hwraps, hinner⟩ := elementWith_eq_ok_iff.1 helement
    obtain rfl := Registry.name_of_fieldByName hfield
    have hbody := (Json.keysDistinct_obj.1 hdistinct).2 _ List.mem_cons_self
    obtain ⟨members, hlevel, hfields⟩ := captures_of_objectWith hregistry hconvert hbody hinner
    rw [List.filterMap_cons, id, Value.ElementsCapture]
    exact ⟨inner, members, items, rfl, hfield, hwraps, hlevel, hfields, ih hrest⟩

/-- A value is of the kind asked for and captures the plain value that it is read from. -/
theorem captures_of_valueWith (hregistry : context.registry.WellFormed) {fuel : Nat} {kind : Kind}
    {j : Json} (hj : j.KeysDistinct) {v : Value} (h : valueWith context fuel kind j = .ok v) :
    v.kind = kind ∧ v.Captures context j := by
  induction fuel generalizing kind j v with
  | zero => cases h
  | succ fuel ih =>
    refine ⟨(kind_of_valueWith h).1, ?_⟩
    by_cases hobject : kind = .object
    · obtain rfl := hobject
      obtain ⟨fields, rfl, hfields⟩ := objectWith_of_valueWith h
      rw [Value.Captures]
      exact captures_of_objectWith hregistry (fun _ _ _ hj hv => ih hj hv) hj hfields
    · by_cases harray : kind = .array
      · obtain rfl := harray
        obtain ⟨elements, rfl, helements⟩ := arrayWith_of_valueWith h
        cases j with
        | arr items =>
          rw [Value.Captures]
          exact ⟨items, rfl, captures_of_arrayWith hregistry (fun _ _ _ hj hv => ih hj hv)
            (Json.keysDistinct_arr.1 hj) helements⟩
        | null | bool _ | num _ | str _ | obj _ => cases helements
      · exact Value.captures_of_isLeaf
          (Value.proper_of_leafOfJson? (leafOfJson?_of_valueWith hobject harray h)).1 j

end Plain

namespace Object

/-- **Objects capture plain objects**, at every level, for every address book and whether or not
only signing fields are wanted. The registry is an accepted one, and the plain value has no key
twice. Fields for objects and arrays hold objects and arrays, so nothing inside is lost. -/
theorem captures_of_ofJson {context : Context} (hregistry : context.registry.Accepted)
    {onlySigning : Bool} {j : Json} (hj : j.KeysDistinct) {fields : Object}
    (h : ofJson context onlySigning j = .ok fields) : Captures context onlySigning fields j :=
  Plain.captures_of_objectWith hregistry.wellFormed
    (fun _ _ _ hj hv => Plain.captures_of_valueWith hregistry.wellFormed hj hv) hj h

end Object

/-! ### A small schema -/

/-- A schema with a field that is not written, one that is not signed, and a tag for an account. -/
def transferSchema : Schema where
  types := [("UInt32", 2), ("Blob", 7), ("AccountID", 8), ("STObject", 14), ("STArray", 15)]
  fields :=
    [⟨"ObjectEndMarker", 1, false, true, true, "STObject"⟩,
     ⟨"ArrayEndMarker", 1, false, true, true, "STArray"⟩,
     ⟨"SourceTag", 3, false, true, true, "UInt32"⟩,
     ⟨"SigningPubKey", 3, true, true, true, "Blob"⟩,
     ⟨"TxnSignature", 4, true, true, false, "Blob"⟩,
     ⟨"Account", 1, true, true, true, "AccountID"⟩,
     ⟨"Memos", 9, false, true, true, "STArray"⟩,
     ⟨"Memo", 10, false, true, true, "STObject"⟩,
     ⟨"Note", 300, true, false, false, "Blob"⟩]
  transactionTypes := []
  transactionResults := []
  ledgerEntryTypes := []

namespace Transfer

/-- The registry of the schema. -/
def registry : Registry where
  fields :=
    [⟨objectEndName, .object, ⟨14, 1⟩, false, true, true⟩,
     ⟨arrayEndName, .array, ⟨15, 1⟩, false, true, true⟩,
     ⟨"SourceTag", .uint32, ⟨2, 3⟩, false, true, true⟩,
     ⟨"SigningPubKey", .blob, ⟨7, 3⟩, true, true, true⟩,
     ⟨"TxnSignature", .blob, ⟨7, 4⟩, true, true, false⟩,
     ⟨"Account", .account, ⟨8, 1⟩, true, true, true⟩,
     ⟨"Memos", .array, ⟨15, 9⟩, false, true, true⟩,
     ⟨"Memo", .object, ⟨14, 10⟩, false, true, true⟩,
     ⟨"Note", .blob, ⟨7, 300⟩, true, false, false⟩]
  typeCodes := [("UInt32", 2), ("Blob", 7), ("AccountID", 8), ("STObject", 14), ("STArray", 15)]
  transactionTypes := ⟨[]⟩
  transactionResults := ⟨[]⟩
  ledgerEntryTypes := ⟨[]⟩

theorem accepted : registry.Accepted :=
  ⟨transferSchema, ⟨List.nodup_nil, List.nodup_nil, List.nodup_nil⟩, rfl⟩

/-- The account of twenty zeros. -/
def account : AccountId := ⟨List.replicate 20 0, rfl⟩

/-- A book with one extended address. -/
def book : AddressBook :=
  { AddressBook.hex with
    decodeExtended := fun text => if text = "X7" then some (account, some 7) else none }

/-- No number is an extended address. -/
theorem sparesNumbers_book : book.SparesNumbers := by
  intro text htext
  have hne : text ≠ "X7" := by
    rintro rfl
    revert htext
    decide
  exact if_neg hne

/-- What plain values are read with. -/
def context : Context := ⟨registry, book⟩

/-- A plain object with an extended address, with members that are not written or not signed, and
with a list. -/
def plain : Json :=
  .obj [("TxnSignature", .str "AB"), ("Account", .str "X7"), ("Note", .str "CD"),
    ("Memos", .arr [.obj [("Memo", .obj [("TxnSignature", .str "EF"), ("SourceTag", .null)])]]),
    ("SourceTag", .null)]

theorem keysDistinct_plain : plain.KeysDistinct := by
  have hmemo : (Json.obj [("TxnSignature", .str "EF"), ("SourceTag", .null)]).KeysDistinct :=
    ⟨by decide, trivial, trivial, trivial⟩
  have hmemos : (Json.arr [.obj [("Memo",
      .obj [("TxnSignature", .str "EF"), ("SourceTag", .null)])]]).KeysDistinct :=
    ⟨⟨List.pairwise_singleton _ _, hmemo, trivial⟩, trivial⟩
  exact ⟨by decide, trivial, trivial, trivial, hmemos, trivial, trivial⟩

/-- The fields of the plain object that are signed. The tag of the address is one of them, and the
signature inside the list is, too. -/
def signedFields : Object :=
  [(⟨"SourceTag", .uint32, ⟨2, 3⟩, false, true, true⟩, .uint32 7),
    (⟨"Account", .account, ⟨8, 1⟩, true, true, true⟩, .account account),
    (⟨"Memos", .array, ⟨15, 9⟩, false, true, true⟩, .array
      [(⟨"Memo", .object, ⟨14, 10⟩, false, true, true⟩,
        [(⟨"TxnSignature", .blob, ⟨7, 4⟩, true, true, false⟩, .blob [0xEF])])])]

end Transfer

/-- The object to be signed has the tag of the address as a field and the signature none, while the
signature inside the list stays. -/
theorem Object.captures_transfer :
    ofJson Transfer.context true Transfer.plain = .ok Transfer.signedFields ∧
      Captures Transfer.context true Transfer.signedFields Transfer.plain := by
  have hfields : ofJson Transfer.context true Transfer.plain = .ok Transfer.signedFields := rfl
  exact ⟨hfields, captures_of_ofJson Transfer.accepted Transfer.keysDistinct_plain hfields⟩

end FieldWire
