import FieldWire.Proofs.Plain.Alike.Leaf
import FieldWire.Proofs.Plain.Levels
import FieldWire.Proofs.Plain.Order

/-!
# Objects of alike plain values

A plain object is read from what its keys have as values, and it does not count in which order they
stand or which of them are null. That is so in every step. Addresses are replaced key by key, and the
replacements do not meet (`Plain.exists_expand_of_corresponds`). Every key is read by itself. And the
fields are sorted by keys of which no two are the same, so they come out in one order
(`Plain.agree_objectWith`).

What `Plain.Corresponds` asks of two objects, that a key has interchangeable values in both or is
absent from both, holds of objects that are alike up to `Leeway.content` if their values are read
alike. By induction that is the case at every level (`Json.Alike.readAlike`), where elements keep
their one key and leaves are as in the previous module.
-/

namespace FieldWire

/-! ### Values of a key -/

namespace Members

/-- Where keys are different, those that have a value are found among the members that are not
null. -/
theorem present_eq_get?_filter {members : Members Json} (hkeys : members.keys.Nodup)
    (key : String) :
    members.present key = get? (members.filter fun m => !m.2.isNull) key := by
  have hkept : (keys (members.filter fun m => !m.2.isNull)).Nodup :=
    (List.filter_sublist.map Prod.fst).nodup hkeys
  ext j
  rw [present_eq_some_iff hkeys]
  constructor
  · rintro ⟨hmem, hnull⟩
    exact get?_eq_some_of_mem hkept (List.mem_filter.2 ⟨hmem, by rw [hnull]; rfl⟩)
  · intro hget
    obtain ⟨hmem, hnull⟩ := List.mem_filter.1 (mem_of_get?_eq_some hget)
    rw [Bool.not_eq_true'] at hnull
    exact ⟨hmem, hnull⟩

/-- Members that are taken out by their keys have no value any more, and the others keep theirs. -/
theorem present_filter_key (keep : String → Bool) (members : Members Json) (key : String) :
    present (members.filter fun m => keep m.1) key =
      if keep key then members.present key else none := by
  induction members with
  | nil => simp [present]
  | cons m rest ih =>
    obtain ⟨k, j⟩ := m
    unfold present at ih ⊢
    by_cases hk : k = key
    · subst hk
      cases hkeep : keep k <;> simp_all [get?_cons]
    · cases hkeep : keep k <;> simp_all [get?_cons]

/-- A key that is put into members has the new value, and no other key notices. -/
theorem present_insert (key : String) (value : Json) (members : Members Json) (k : String) :
    (insert key value members).present k =
      if key = k then (some value).filter fun j => !j.isNull else members.present k := by
  rw [present, get?_insert]
  split <;> rfl

end Members

namespace Plain

variable {context : Context} {convert : Kind → Json → Except Error Value}

variable (context convert) in
/-- A key may have either value: they are the same address, say the same tag and are read alike. -/
structure Interchangeable (key : String) (j j' : Json) : Prop where
  /-- Both are the same text, if any. -/
  str?_eq : j.str? = j'.str?
  /-- Both say the same tag, if any. -/
  tag_eq : tagOfJson? j = tagOfJson? j'
  /-- Both are the same value of the field that the key names. -/
  agree : ∀ onlySigning, Agree (fieldOfMember context convert onlySigning (key, j))
    (fieldOfMember context convert onlySigning (key, j'))

namespace Interchangeable

variable {key : String} {j j' : Json}

theorem refl (key : String) (j : Json) : Interchangeable context convert key j j :=
  ⟨rfl, rfl, fun _ => .refl _⟩

theorem symm (h : Interchangeable context convert key j j') :
    Interchangeable context convert key j' j :=
  ⟨h.str?_eq.symm, h.tag_eq.symm, fun s => (h.agree s).symm⟩

end Interchangeable

variable (context convert) in
/-- Every key has interchangeable values in both objects, or no value in either. -/
def Corresponds (members members' : Members Json) : Prop :=
  ∀ key, Option.Rel (Interchangeable context convert key) (members.present key)
    (members'.present key)

namespace Corresponds

variable {members members' : Members Json}

theorem symm (h : Corresponds context convert members members') :
    Corresponds context convert members' members := by
  intro key
  have hkey := h key
  revert hkey
  generalize members.present key = o
  generalize members'.present key = o'
  intro hkey
  cases hkey with
  | none => exact .none
  | some hvalue => exact .some hvalue.symm

/-- The value of a key has a counterpart. -/
theorem exists_present (h : Corresponds context convert members members') {key : String} {j : Json}
    (hj : members.present key = some j) :
    ∃ j', members'.present key = some j' ∧ Interchangeable context convert key j j' := by
  have hkey := h key
  rw [hj] at hkey
  cases hj' : members'.present key with
  | none =>
    rw [hj'] at hkey
    cases hkey
  | some j' =>
    rw [hj'] at hkey
    cases hkey with
    | some hvalue => exact ⟨j', rfl, hvalue⟩

/-- Members that are not null have counterparts. -/
theorem exists_mem (h : Corresponds context convert members members') (hkeys : members.keys.Nodup)
    (hkeys' : members'.keys.Nodup) {m : String × Json} (hm : m ∈ members)
    (hnull : m.2.isNull = false) : ∃ j', (m.1, j') ∈ members' ∧ j'.isNull = false ∧
      Interchangeable context convert m.1 m.2 j' := by
  have hpresent := (Members.present_eq_some_iff hkeys).2 ⟨hm, hnull⟩
  obtain ⟨j', hj', hvalue⟩ := h.exists_present hpresent
  obtain ⟨hmem, hnull'⟩ := (Members.present_eq_some_iff hkeys').1 hj'
  exact ⟨j', hmem, hnull', hvalue⟩

/-- The same member may be put into both objects. -/
theorem insert (h : Corresponds context convert members members') (key : String) (value : Json) :
    Corresponds context convert (Members.insert key value members)
      (Members.insert key value members') := by
  intro k
  rw [Members.present_insert, Members.present_insert]
  split
  · cases (some value).filter fun j => !j.isNull with
    | none => exact .none
    | some j => exact .some (.refl k j)
  · exact h k

end Corresponds

/-! ### Addresses -/

/-- An extended address is a text. -/
private theorem isNull_of_extended? {book : AddressBook} {j : Json}
    {found : AccountId × Option UInt32} (h : extended? book j = some found) : j.isNull = false := by
  cases j <;> first | rfl | cases h

private theorem extended?_eq {book : AddressBook} {j j' : Json} (h : j.str? = j'.str?) :
    extended? book j = extended? book j' := by
  rw [extended?, extended?, h]

section Expansion

variable {given given' : Members Json} (hkeys : given.keys.Nodup) (hkeys' : given'.keys.Nodup)
  (h : Corresponds context convert given given')
include hkeys hkeys' h

/-- A replacement in one object is one in the other. -/
private theorem mem_replacements_of_corresponds {r : String × Json}
    (hr : r ∈ given.flatMap (replacements context.addresses)) :
    r ∈ given'.flatMap (replacements context.addresses) := by
  obtain ⟨m, hm, hr⟩ := List.mem_flatMap.1 hr
  have hnull : m.2.isNull = false := by
    unfold replacements at hr
    split at hr
    · cases hr
    · next hextended => exact isNull_of_extended? hextended
    · next hextended => exact isNull_of_extended? hextended
  obtain ⟨j', hj', -, hvalue⟩ := h.exists_mem hkeys hkeys' hm hnull
  refine List.mem_flatMap.2 ⟨(m.1, j'), hj', ?_⟩
  rw [replacements] at hr ⊢
  rwa [← extended?_eq hvalue.str?_eq]

/-- If all tags are settled in one object, they are in the other. -/
private theorem isSettled_of_corresponds
    (hsettled : ∀ m ∈ given, IsSettled context.addresses given m) :
    ∀ m ∈ given', IsSettled context.addresses given' m := by
  intro m' hm' account tag hextended
  obtain ⟨j, hj, -, hvalue⟩ :=
    h.symm.exists_mem hkeys' hkeys hm' (isNull_of_extended? hextended)
  have hgiven : extended? context.addresses j = some (account, some tag) := by
    rwa [← extended?_eq hvalue.str?_eq]
  obtain ⟨tagField, htagField, hagrees⟩ := hsettled (m'.1, j) hj account tag hgiven
  refine ⟨tagField, htagField, fun explicit' hexplicit' => ?_⟩
  obtain ⟨explicit, hexplicit, hsame⟩ := h.symm.exists_present hexplicit'
  rw [hsame.tag_eq]
  exact hagrees explicit hexplicit

/-- Corresponding objects have their addresses replaced, or neither of them does, and they
correspond then. -/
theorem exists_expand_of_corresponds (hbook : context.addresses.SparesNumbers)
    {members : Members Json} (hexpand : expand context.addresses given = .ok members) :
    ∃ members', expand context.addresses given' = .ok members' ∧
      Corresponds context convert members members' := by
  have hsettled := isSettled_of_corresponds hkeys hkeys' h (expand_eq_ok_iff.1 hexpand).1
  have hexpand' := expand_eq_ok_iff.2 ⟨hsettled, rfl⟩
  refine ⟨_, hexpand', fun key => ?_⟩
  obtain ⟨hreplaced, hkept⟩ := present_expand hbook hkeys hexpand key
  obtain ⟨hreplaced', hkept'⟩ := present_expand hbook hkeys' hexpand' key
  -- a key that is replaced has the same replacement in both, and others have what they had
  by_cases hkey : key ∈ Members.keys (given.flatMap (replacements context.addresses))
  · obtain ⟨r, hr, rfl⟩ := List.mem_map.1 hkey
    rw [hreplaced r.2 hr, hreplaced' r.2 (mem_replacements_of_corresponds hkeys hkeys' h hr)]
    exact .some (.refl r.1 r.2)
  · have hkey' : key ∉ Members.keys (given'.flatMap (replacements context.addresses)) := by
      intro hmem
      obtain ⟨r, hr, rfl⟩ := List.mem_map.1 hmem
      have hback := mem_replacements_of_corresponds hkeys' hkeys h.symm hr
      exact hkey (List.mem_map_of_mem hback)
    rw [hkept hkey, hkept' hkey']
    exact h key

end Expansion

/-! ### Fields -/

section Fields

variable {members members' : Members Json} {onlySigning : Bool} (hkeys : members.keys.Nodup)
  (hkeys' : members'.keys.Nodup) (h : Corresponds context convert members members')
include hkeys hkeys' h

private theorem exists_outcome_of_corresponds
    (houtcome : ∀ m ∈ members, ∃ o, fieldOfMember context convert onlySigning m = .ok o) :
    ∀ m ∈ members', ∃ o, fieldOfMember context convert onlySigning m = .ok o := by
  intro m' hm'
  cases hnull : m'.2.isNull with
  | true => exact ⟨none, by rw [fieldOfMember, if_pos hnull]⟩
  | false =>
    obtain ⟨j, hj, -, hvalue⟩ := h.symm.exists_mem hkeys' hkeys hm' hnull
    obtain ⟨o, ho⟩ := houtcome (m'.1, j) hj
    exact ⟨o, (hvalue.agree onlySigning o).2 ho⟩

private theorem mem_collect_of_corresponds {collected collected' : Object}
    (hcollected : collect (fieldOfMember context convert onlySigning) members = .ok collected)
    (hcollected' : collect (fieldOfMember context convert onlySigning) members' = .ok collected')
    {p : Field × Value} (hp : p ∈ collected) : p ∈ collected' := by
  obtain ⟨m, hm, hfield⟩ := exists_mem_of_collect hcollected hp
  have hnull := (fieldOfMember_eq_some_iff.1 hfield).1
  obtain ⟨j', hj', -, hvalue⟩ := h.exists_mem hkeys hkeys' hm hnull
  exact mem_of_collect hcollected' hj' ((hvalue.agree onlySigning _).1 hfield)

/-- The fields of corresponding members are the same when they are sorted. -/
private theorem exists_collect_of_corresponds (hregistry : context.registry.WellFormed)
    {collected : Object}
    (hcollected : collect (fieldOfMember context convert onlySigning) members = .ok collected) :
    ∃ collected', collect (fieldOfMember context convert onlySigning) members' = .ok collected' ∧
      Object.sorted collected' = Object.sorted collected := by
  have houtcome := exists_collect_iff.1 ⟨collected, hcollected⟩
  obtain ⟨collected', hcollected'⟩ :=
    exists_collect_iff.2 (exists_outcome_of_corresponds hkeys hkeys' h houtcome)
  obtain ⟨hwritten, hnames⟩ := written_of_collect hkeys hcollected
  obtain ⟨hwritten', hnames'⟩ := written_of_collect hkeys' hcollected'
  -- the fields stand in other orders here, but sorting them leaves only one
  refine ⟨collected', hcollected', Object.eq_of_increasing
    (Object.pairwise_lt_sorted hregistry hwritten' hnames')
    (Object.pairwise_lt_sorted hregistry hwritten hnames) fun p => ?_⟩
  rw [(Object.sorted_perm collected').mem_iff, (Object.sorted_perm collected).mem_iff]
  exact ⟨mem_collect_of_corresponds hkeys' hkeys h.symm hcollected' hcollected,
    mem_collect_of_corresponds hkeys hkeys' h hcollected hcollected'⟩

/-- One direction of `agree_objectWith`. -/
private theorem objectWith_of_corresponds (hregistry : context.registry.WellFormed)
    (hbook : context.addresses.SparesNumbers) {fields : Object}
    (hfields : objectWith context convert onlySigning (.obj members) = .ok fields) :
    objectWith context convert onlySigning (.obj members') = .ok fields := by
  obtain ⟨_, expanded, collected, heq, hexpand, hcollected, rfl⟩ := objectWith_eq_ok_iff.1 hfields
  cases heq
  obtain ⟨expanded', hexpand', hexpanded⟩ :=
    exists_expand_of_corresponds hkeys hkeys' h hbook hexpand
  obtain ⟨collected', hcollected', hsorted⟩ :=
    exists_collect_of_corresponds (nodup_keys_expand hexpand hkeys)
      (nodup_keys_expand hexpand' hkeys') hexpanded hregistry hcollected
  exact objectWith_eq_ok_iff.2 ⟨members', expanded', collected', rfl, hexpand', hcollected', hsorted⟩

/-- Corresponding objects are read alike. -/
theorem agree_objectWith (hregistry : context.registry.WellFormed)
    (hbook : context.addresses.SparesNumbers) :
    Agree (objectWith context convert onlySigning (.obj members))
      (objectWith context convert onlySigning (.obj members')) := by
  intro fields
  exact ⟨objectWith_of_corresponds hkeys hkeys' h hregistry hbook,
    objectWith_of_corresponds hkeys' hkeys h.symm hregistry hbook⟩

end Fields

/-! ### Alike members -/

variable (context) in
/-- Two values are the same in a role. -/
def ReadAlike (j j' : Json) : Role → Prop
  | .value kind => Agree (Value.ofJson context kind j) (Value.ofJson context kind j')
  | .element => Agree (elementWith context (Value.ofJson context) j)
      (elementWith context (Value.ofJson context) j')
  | .part => True

/-- Alike values are the same value of a field, also where they stand for the code of a name. -/
private theorem agree_valueOfField {leeway : Leeway} {f : Field} {j j' : Json}
    (h : Json.Alike context.registry leeway (.value f.kind) j j')
    (hread : ReadAlike context j j' (.value f.kind)) :
    Agree (valueOfField context (Value.ofJson context) f j)
      (valueOfField context (Value.ofJson context) f j') := by
  unfold valueOfField
  cases context.registry.enumTable? f.name with
  | none => exact hread.mapError _ _
  | some table =>
    dsimp only
    intro v
    -- lists and objects have no code, and other alike values are the same
    have hcode := (refuses_enumCode f table).agree h
    cases hj : enumCode f table j with
    | ok code => rw [(hcode code).1 hj]
    | error e =>
      cases hj' : enumCode f table j' with
      | error e' => exact Agree.of_error e e' v
      | ok code =>
        rw [(hcode code).2 hj'] at hj
        cases hj

/-- Alike values are interchangeable if they are the same in the role that the key gives them. -/
private theorem interchangeable_of_alike {leeway : Leeway} {key : String} {j j' : Json}
    (h : Json.Alike context.registry leeway ((Role.value .object).ofMember context.registry key)
      j j')
    (hread : ReadAlike context j j' ((Role.value .object).ofMember context.registry key)) :
    Interchangeable context (Value.ofJson context) key j j' := by
  refine ⟨h.str?_eq, ?_, fun onlySigning => ?_⟩
  · cases h <;> rfl
  · unfold fieldOfMember
    dsimp only
    rw [h.isNull_eq]
    split
    · exact .refl _
    · cases hfield : context.registry.fieldByName key with
      | error e => exact .refl _
      | ok f =>
        rw [Role.ofMember_of_fieldByName hfield] at h hread
        dsimp only
        split
        · exact .refl _
        · split
          · exact .refl _
          · exact (agree_valueOfField h hread).map _

/-- Members that are told by keys in common correspond if the values of these are the same. -/
theorem corresponds_of_shared {members members' : Members Json} (hkeys : members.keys.Nodup)
    (hkeys' : members'.keys.Nodup) {shared : List (String × Json × Json)}
    (htold : Leeway.content (.value .object) members (shared.map fun m => (m.1, m.2.1)))
    (htold' : Leeway.content (.value .object) members' (shared.map fun m => (m.1, m.2.2)))
    (hvalues : ∀ m ∈ shared, Json.Alike context.registry .content
      ((Role.value .object).ofMember context.registry m.1) m.2.1 m.2.2)
    (hread : ∀ m ∈ shared, ReadAlike context m.2.1 m.2.2
      ((Role.value .object).ofMember context.registry m.1)) :
    Corresponds context (Value.ofJson context) members members' := by
  have hkept : ∀ {members : Members Json}, members.keys.Nodup →
      (Members.keys (members.filter fun m => !m.2.isNull)).Nodup :=
    fun hkeys => (List.filter_sublist.map Prod.fst).nodup hkeys
  intro key
  rw [Members.present_eq_get?_filter hkeys, Members.present_eq_get?_filter hkeys']
  exact Members.rel_get?_of_shared (hkept hkeys) (hkept hkeys') htold htold'
    (fun m hm => interchangeable_of_alike (hvalues m hm) (hread m hm)) key

/-! ### Alike elements -/

private theorem elementWith_of_length_ne_one {convert : Kind → Json → Except Error Value}
    {members : Members Json} (h : members.length ≠ 1) :
    elementWith context convert (.obj members) = .error (.ofKind .array .elementShape) := by
  match members with
  | [] => rfl
  | [_] => exact absurd rfl h
  | _ :: _ :: _ => rfl

/-- Objects that have their one key in common are the same element if the values of this key are the
same object. -/
private theorem agree_elementWith {members members' : Members Json}
    {shared : List (String × Json × Json)}
    (htold : members.Perm (shared.map fun m => (m.1, m.2.1)))
    (htold' : members'.Perm (shared.map fun m => (m.1, m.2.2)))
    (hread : ∀ m ∈ shared, ReadAlike context m.2.1 m.2.2 (.value .object)) :
    Agree (elementWith context (Value.ofJson context) (.obj members))
      (elementWith context (Value.ofJson context) (.obj members')) := by
  -- members in another order are the same member if there is one, and no element otherwise
  by_cases hlength : shared.length = 1
  · obtain ⟨⟨key, j, j'⟩, rfl⟩ := List.length_eq_one_iff.1 hlength
    obtain rfl := List.perm_singleton.1 htold
    obtain rfl := List.perm_singleton.1 htold'
    have hobject : Agree (objectWith context (Value.ofJson context) false j)
        (objectWith context (Value.ofJson context) false j') := by
      have hvalue : Agree (Value.ofJson context .object j) (Value.ofJson context .object j') :=
        hread _ List.mem_cons_self
      rw [Value.ofJson_object, Value.ofJson_object] at hvalue
      intro fields
      have hfields := hvalue (.object fields)
      simpa only [map_eq_ok_iff, Value.object.injEq, exists_eq_right] using hfields
    unfold elementWith
    dsimp only
    cases context.registry.fieldByName key with
    | error e => exact .refl _
    | ok f =>
      dsimp only
      split
      · exact (hobject.mapError _ _).map _
      · exact .refl _
  · have hne : members.length ≠ 1 := by rwa [htold.length_eq, List.length_map]
    have hne' : members'.length ≠ 1 := by rwa [htold'.length_eq, List.length_map]
    rw [elementWith_of_length_ne_one hne, elementWith_of_length_ne_one hne']
    exact .refl _

/-- Lists whose items are the same elements are the same array. -/
private theorem agree_arrayWith {pairs : List (Json × Json)}
    (hread : ∀ p ∈ pairs, ReadAlike context p.1 p.2 .element) :
    Agree (arrayWith context (Value.ofJson context) (.arr (pairs.map Prod.fst)))
      (arrayWith context (Value.ofJson context) (.arr (pairs.map Prod.snd))) :=
  agree_collect (forall₂_of_pairs fun p hp => (hread p hp).map some)

end Plain

/-! ### All levels -/

namespace Json.Alike

open Plain

variable {context : Context} {role : Role} {j j' : Json}

/-- The values that tell members have every key once if the members do. -/
private theorem keysDistinct_of_told (side : Json × Json → Json) {members : Members Json}
    {shared : List (String × Json × Json)}
    (h : Leeway.content role members (shared.map fun m => (m.1, side m.2)))
    (hmembers : (Json.obj members).KeysDistinct) : ∀ m ∈ shared, (side m.2).KeysDistinct := by
  have hvalues := (Json.keysDistinct_obj.1 hmembers).2
  intro m hm
  have htold := List.mem_map_of_mem (f := fun m => (m.1, side m.2)) hm
  unfold Leeway.content at h
  split at h
  · exact hvalues _ (List.mem_filter.1 (h.mem_iff.2 htold)).1
  · exact hvalues _ (h.mem_iff.2 htold)

/-- Alike values are the same leaf of a kind. -/
private theorem readAlike_of_leaf {kind : Kind} (hobject : kind ≠ .object) (harray : kind ≠ .array)
    (h : Json.Alike context.registry .content (.value kind) j j') (hj : j.KeysDistinct)
    (hj' : j'.KeysDistinct) : ReadAlike context j j' (.value kind) := by
  have hleaf : ∀ i, ∃ result, Value.leafOfJson? context.addresses kind i = some result := by
    intro i
    refine Option.ne_none_iff_exists'.1 fun hnone => ?_
    exact (Value.leafOfJson?_eq_none_iff.1 hnone).elim hobject harray
  obtain ⟨result, hresult⟩ := hleaf j
  obtain ⟨result', hresult'⟩ := hleaf j'
  rw [ReadAlike, Value.ofJson_leaf hresult, Value.ofJson_leaf hresult']
  exact Value.agree_leaf h hj hj' hresult hresult'

/-- Alike values without repeated keys are the same in their role. -/
theorem readAlike (hregistry : context.registry.WellFormed)
    (hbook : context.addresses.SparesNumbers)
    (h : Json.Alike context.registry .content role j j') (hj : j.KeysDistinct)
    (hj' : j'.KeysDistinct) : ReadAlike context j j' role := by
  -- lists and objects are refused in roles that are not theirs, and agree in that
  induction h with
  | leaf role _ =>
    match role with
    | .value _ | .element => exact .refl _
    | .part => trivial
  | arr role pairs hitems ih =>
    have hread : ∀ p ∈ pairs, ReadAlike context p.1 p.2 role.ofItem := by
      intro p hp
      exact ih p hp (Json.keysDistinct_arr.1 hj _ (List.mem_map_of_mem hp))
        (Json.keysDistinct_arr.1 hj' _ (List.mem_map_of_mem hp))
    match role with
    | .part => trivial
    | .element => exact .of_error _ _
    | .value kind =>
      by_cases hobject : kind = .object
      · obtain rfl := hobject
        rw [ReadAlike, Value.ofJson_object, Value.ofJson_object]
        exact .of_error _ _
      · by_cases harray : kind = .array
        · obtain rfl := harray
          rw [ReadAlike, Value.ofJson_array, Value.ofJson_array]
          exact (agree_arrayWith hread).map _
        · exact readAlike_of_leaf hobject harray (.arr _ pairs hitems) hj hj'
  | @obj role members members' shared htold htold' hvalues ih =>
    have hread : ∀ m ∈ shared, ReadAlike context m.2.1 m.2.2
        (role.ofMember context.registry m.1) := by
      intro m hm
      exact ih m hm (keysDistinct_of_told Prod.fst htold hj m hm)
        (keysDistinct_of_told Prod.snd htold' hj' m hm)
    match role with
    | .part => trivial
    | .element => exact agree_elementWith htold htold' hread
    | .value kind =>
      by_cases hobject : kind = .object
      · obtain rfl := hobject
        have hkeys := (Json.keysDistinct_obj.1 hj).1
        have hkeys' := (Json.keysDistinct_obj.1 hj').1
        rw [ReadAlike, Value.ofJson_object, Value.ofJson_object]
        exact (agree_objectWith hkeys hkeys'
          (corresponds_of_shared hkeys hkeys' htold htold' hvalues hread) hregistry hbook).map _
      · by_cases harray : kind = .array
        · obtain rfl := harray
          rw [ReadAlike, Value.ofJson_array, Value.ofJson_array]
          exact .of_error _ _
        · exact readAlike_of_leaf hobject harray (.obj _ shared htold htold' hvalues) hj hj'

/-- Alike values of a key are interchangeable. -/
theorem interchangeable (hregistry : context.registry.WellFormed)
    (hbook : context.addresses.SparesNumbers) {key : String}
    (h : Json.Alike context.registry .content
      ((Role.value .object).ofMember context.registry key) j j')
    (hj : j.KeysDistinct) (hj' : j'.KeysDistinct) :
    Interchangeable context (Value.ofJson context) key j j' :=
  interchangeable_of_alike h (h.readAlike hregistry hbook hj hj')

/-- Alike objects correspond. -/
theorem corresponds (hregistry : context.registry.WellFormed)
    (hbook : context.addresses.SparesNumbers) {members members' : Members Json}
    (h : Json.Alike context.registry .content (.value .object) (.obj members) (.obj members'))
    (hj : (Json.obj members).KeysDistinct) (hj' : (Json.obj members').KeysDistinct) :
    Corresponds context (Value.ofJson context) members members' := by
  cases h with
  | leaf _ hleaf => cases hleaf
  | obj _ shared htold htold' hvalues =>
    refine corresponds_of_shared (Json.keysDistinct_obj.1 hj).1 (Json.keysDistinct_obj.1 hj').1
      htold htold' hvalues fun m hm => ?_
    exact (hvalues m hm).readAlike hregistry hbook
      (keysDistinct_of_told Prod.fst htold hj m hm) (keysDistinct_of_told Prod.snd htold' hj' m hm)

end Json.Alike

end FieldWire
