import FieldWire.Proofs.Plain.Leaf
import FieldWire.Proofs.Registry.Regular

/-!
# Objects of plain values

Reading a plain object succeeds if each step does, and the steps are told apart here once:
`Plain.objectWith_eq_ok_iff`, `Plain.elementWith_eq_ok_iff`, `Plain.fieldOfMember_eq_some_iff`, and
`Plain.fieldOfMember_eq_none_iff` for members that are passed over. From them follows, by recursion
on the plain value, what its object is like. The fields fit their values
(`Object.fits_of_ofJson`), and numbers with names are named (`Object.named_of_ofJson`). Both hold
for every address book and whether or not all fields are wanted.
-/

namespace FieldWire

/-! ### Steps -/

namespace Plain

variable {context : Context} {convert : Kind → Json → Except Error Value} {onlySigning : Bool}

theorem withField_eq_ok_iff {α : Type} {field : String} {result : Except Error α} {a : α} :
    withField field result = .ok a ↔ result = .ok a := mapError_eq_ok_iff

/-- A member stands for a field if it has the name of a written one and is not passed over. -/
theorem fieldOfMember_eq_some_iff {member : String × Json} {p : Field × Value} :
    fieldOfMember context convert onlySigning member = .ok (some p) ↔
      member.2.isNull = false ∧ context.registry.fieldByName member.1 = .ok p.1 ∧
        p.1.isMarker = false ∧ p.1.serialized = true ∧ (onlySigning = true → p.1.signing = true) ∧
          valueOfField context convert p.1 member.2 = .ok p.2 := by
  obtain ⟨f, v⟩ := p
  unfold fieldOfMember
  cases hnull : member.2.isNull with
  | true => simp
  | false =>
    cases hfield : context.registry.fieldByName member.1 with
    | error e => simp
    | ok g =>
      dsimp only
      cases hmarker : g.isMarker with
      | true =>
        simp only [Bool.false_eq_true, if_false, if_true]
        refine ⟨nofun, fun ⟨_, hg, hm, _⟩ => ?_⟩
        cases hg
        rw [hmarker] at hm
        cases hm
      | false =>
        simp only [Bool.false_eq_true, if_false]
        split
        · next hskip =>
          refine ⟨nofun, fun ⟨_, hg, _, hs, hsigning, _⟩ => ?_⟩
          cases hg
          cases onlySigning <;> simp_all
        · next hkeep =>
          rw [map_eq_ok_iff]
          constructor
          · rintro ⟨w, hw, heq⟩
            cases heq
            refine ⟨trivial, rfl, hmarker, ?_, ?_, hw⟩ <;> cases onlySigning <;> simp_all
          · rintro ⟨-, hg, -, -, -, hv⟩
            cases hg
            exact ⟨v, hv, rfl⟩

/-- A member is passed over if it is null or names a field that is not written or, where only
signing fields are wanted, not signed. -/
theorem fieldOfMember_eq_none_iff {member : String × Json} :
    fieldOfMember context convert onlySigning member = .ok none ↔
      member.2.isNull = true ∨ ∃ f, context.registry.fieldByName member.1 = .ok f ∧
        f.isMarker = false ∧ (f.serialized = false ∨ onlySigning = true ∧ f.signing = false) := by
  unfold fieldOfMember
  cases hnull : member.2.isNull with
  | true => simp
  | false =>
    cases hfield : context.registry.fieldByName member.1 with
    | error e => simp
    | ok f =>
      have hvalue : (valueOfField context convert f member.2).map (fun v => some (f, v)) ≠
          .ok none := by
        intro h
        obtain ⟨_, -, hsome⟩ := map_eq_ok_iff.1 h
        cases hsome
      cases hmarker : f.isMarker <;> cases hwritten : f.serialized <;> cases hsigning : f.signing <;>
        cases onlySigning <;> simp [hmarker, hwritten, hsigning, hvalue]

/-- An object is read by replacing addresses, reading members and sorting. -/
theorem objectWith_eq_ok_iff {j : Json} {fields : Object} :
    objectWith context convert onlySigning j = .ok fields ↔
      ∃ given members collected, j = .obj given ∧ expand context.addresses given = .ok members ∧
        collect (fieldOfMember context convert onlySigning) members = .ok collected ∧
          Object.sorted collected = fields := by
  unfold objectWith
  cases j with
  | obj given =>
    simp only [Json.obj?]
    cases hexpand : expand context.addresses given with
    | error e => simp [hexpand]
    | ok members => simp [hexpand, map_eq_ok_iff]
  | null | bool _ | num _ | str _ | arr _ => simp [Json.obj?]

/-- An element is read from its only member. -/
theorem elementWith_eq_ok_iff {item : Json} {e : Element} :
    elementWith context convert item = .ok e ↔
      ∃ name inner, item = .obj [(name, inner)] ∧ context.registry.fieldByName name = .ok e.1 ∧
        e.1.isElement = true ∧ objectWith context convert false inner = .ok e.2 := by
  obtain ⟨f, fields⟩ := e
  unfold elementWith
  split
  · next name inner =>
    cases hfield : context.registry.fieldByName name with
    | error e =>
      refine ⟨nofun, ?_⟩
      rintro ⟨_, _, heq, hf, -⟩
      cases heq
      rw [hfield] at hf
      cases hf
    | ok g =>
      dsimp only
      split
      · next helement =>
        rw [map_eq_ok_iff]
        constructor
        · rintro ⟨result, hresult, heq⟩
          cases heq
          exact ⟨name, inner, rfl, hfield, helement, withField_eq_ok_iff.1 hresult⟩
        · rintro ⟨_, _, heq, hf, -, hfields⟩
          cases heq
          cases hfield.symm.trans hf
          exact ⟨fields, withField_eq_ok_iff.2 hfields, rfl⟩
      · next helement =>
        refine ⟨nofun, ?_⟩
        rintro ⟨_, _, heq, hf, helement', -⟩
        cases heq
        cases hfield.symm.trans hf
        exact absurd helement' helement
  · next hshape =>
    refine ⟨nofun, ?_⟩
    rintro ⟨name, inner, rfl, -⟩
    exact absurd rfl (hshape name inner)

/-- The fields of an object come from its members. -/
theorem exists_member_of_objectWith {j : Json} {fields : Object}
    (h : objectWith context convert onlySigning j = .ok fields) {p : Field × Value}
    (hp : p ∈ fields) :
    ∃ member, fieldOfMember context convert onlySigning member = .ok (some p) := by
  obtain ⟨given, members, collected, -, -, hcollected, rfl⟩ := objectWith_eq_ok_iff.1 h
  obtain ⟨member, -, hmember⟩ :=
    exists_mem_of_collect hcollected ((Object.sorted_perm collected).mem_iff.1 hp)
  exact ⟨member, hmember⟩

/-- The elements of an array come from its items. -/
theorem exists_item_of_arrayWith {j : Json} {elements : List Element}
    (h : arrayWith context convert j = .ok elements) {e : Element} (he : e ∈ elements) :
    ∃ items, j = .arr items ∧ ∃ item ∈ items, elementWith context convert item = .ok e := by
  unfold arrayWith at h
  cases j with
  | arr items =>
    obtain ⟨item, hitem, hconvert⟩ := exists_mem_of_collect h he
    obtain ⟨element, helement, heq⟩ := map_eq_ok_iff.1 hconvert
    exact ⟨items, rfl, item, hitem, Option.some.inj heq ▸ helement⟩
  | null | bool _ | num _ | str _ | obj _ => cases h

/-! ### Values -/

theorem valueWith_object (fuel : Nat) (j : Json) :
    valueWith context (fuel + 1) .object j =
      (objectWith context (valueWith context fuel) false j).map Value.object := by
  rw [valueWith, Value.leafOfJson?_eq_none_iff.2 (.inl rfl)]
  rfl

theorem valueWith_array (fuel : Nat) (j : Json) :
    valueWith context (fuel + 1) .array j =
      (arrayWith context (valueWith context fuel) j).map Value.array := by
  rw [valueWith, Value.leafOfJson?_eq_none_iff.2 (.inr rfl)]
  rfl

theorem valueWith_of_leafOfJson? {kind : Kind} {j : Json} {result : Except Error Value}
    (h : Value.leafOfJson? context.addresses kind j = some result) (fuel : Nat) :
    valueWith context (fuel + 1) kind j = result := by
  rw [valueWith, h]

theorem objectWith_of_valueWith {fuel : Nat} {j : Json} {v : Value}
    (h : valueWith context (fuel + 1) .object j = .ok v) :
    ∃ fields, v = .object fields ∧
      objectWith context (valueWith context fuel) false j = .ok fields := by
  rw [valueWith_object] at h
  obtain ⟨fields, hfields, rfl⟩ := map_eq_ok_iff.1 h
  exact ⟨fields, rfl, hfields⟩

theorem arrayWith_of_valueWith {fuel : Nat} {j : Json} {v : Value}
    (h : valueWith context (fuel + 1) .array j = .ok v) :
    ∃ elements, v = .array elements ∧
      arrayWith context (valueWith context fuel) j = .ok elements := by
  rw [valueWith_array] at h
  obtain ⟨elements, helements, rfl⟩ := map_eq_ok_iff.1 h
  exact ⟨elements, rfl, helements⟩

theorem leafOfJson?_of_valueWith {fuel : Nat} {kind : Kind} {j : Json} {v : Value}
    (hobject : kind ≠ .object) (harray : kind ≠ .array)
    (h : valueWith context (fuel + 1) kind j = .ok v) :
    Value.leafOfJson? context.addresses kind j = some (.ok v) := by
  rw [valueWith] at h
  split at h
  · next result hresult => rw [hresult, h]
  · next hnone =>
    exact ((Value.leafOfJson?_eq_none_iff.1 hnone).elim hobject harray).elim

/-- A value of a kind is of that kind, and a leaf is proper. -/
theorem kind_of_valueWith {fuel : Nat} {kind : Kind} {j : Json} {v : Value}
    (h : valueWith context fuel kind j = .ok v) : v.kind = kind ∧ v.IsProper := by
  cases fuel with
  | zero => cases h
  | succ fuel =>
    by_cases hobject : kind = .object
    · obtain rfl := hobject
      obtain ⟨fields, rfl, -⟩ := objectWith_of_valueWith h
      exact ⟨rfl, trivial⟩
    · by_cases harray : kind = .array
      · obtain rfl := harray
        obtain ⟨elements, rfl, -⟩ := arrayWith_of_valueWith h
        exact ⟨rfl, trivial⟩
      · exact (Value.proper_of_leafOfJson? (leafOfJson?_of_valueWith hobject harray h)).2

/-- The code of a plain named value has a name. -/
private theorem exists_name_of_enumCode {f : Field} {table : EnumTable} {j code : Json}
    (h : enumCode f table j = .ok code) :
    ∃ n name, code = .int n ∧ table.nameOf? n = some name := by
  unfold enumCode at h
  dsimp only at h
  split at h
  · next n hn =>
    cases h
    split at hn
    · obtain ⟨first, hfirst⟩ := EnumTable.exists_nameOf?_of_codeOf? hn
      exact ⟨n, first, rfl, hfirst⟩
    · obtain ⟨-, hname⟩ := Option.filter_eq_some_iff.1 hn
      obtain ⟨name, hname⟩ := Option.isSome_iff_exists.1 hname
      exact ⟨n, name, rfl, hname⟩
    · cases hn
  · cases h

theorem exists_int_of_enumCode {f : Field} {table : EnumTable} {j code : Json}
    (h : enumCode f table j = .ok code) : ∃ n, code = .int n := by
  obtain ⟨n, -, hcode, -⟩ := exists_name_of_enumCode h
  exact ⟨n, hcode⟩

/-- The value of a field is that of its kind, for the plain value or for the code of its name. -/
theorem exists_of_valueOfField {f : Field} {j : Json} {v : Value}
    (h : valueOfField context convert f j = .ok v) :
    ∃ j', convert f.kind j' = .ok v ∧ (j' = j ∨ ∃ n, j' = .int n) := by
  unfold valueOfField at h
  split at h
  · exact ⟨j, withField_eq_ok_iff.1 h, .inl rfl⟩
  · split at h
    · cases h
    · next code hcode =>
      obtain ⟨n, -, rfl, -⟩ := exists_name_of_enumCode hcode
      exact ⟨.int n, withField_eq_ok_iff.1 h, .inr ⟨n, rfl⟩⟩

/-- A local rule holds everywhere if it holds of the fields of members and of elements. -/
theorem obeys_of_valueWith {rule : Rule} (hrule : rule.IsLocal)
    (hentry : ∀ fuel onlySigning member p,
      fieldOfMember context (valueWith context fuel) onlySigning member = .ok (some p) →
        rule.entry p.1 p.2 [])
    (hwrapper : ∀ f ∈ context.registry.fields, f.isElement = true → rule.wrapper f)
    {fuel : Nat} {kind : Kind} {j : Json} {v : Value}
    (h : valueWith context fuel kind j = .ok v) : v.Obeys rule := by
  induction fuel generalizing kind j v with
  | zero => cases h
  | succ fuel ih =>
    -- inner objects come in three places, always with the reader of the level below
    have hobject : ∀ onlySigning j fields,
        objectWith context (valueWith context fuel) onlySigning j = .ok fields →
          Object.Obeys rule fields := by
      intro onlySigning j fields hfields
      refine (Object.obeys_iff_forall hrule).2 fun p hp => ?_
      obtain ⟨member, hmember⟩ := exists_member_of_objectWith hfields hp
      obtain ⟨j', hj', -⟩ :=
        exists_of_valueOfField (fieldOfMember_eq_some_iff.1 hmember).2.2.2.2.2
      exact ⟨hentry _ _ _ _ hmember, ih hj'⟩
    by_cases hkind : kind = .object
    · obtain rfl := hkind
      obtain ⟨fields, rfl, hfields⟩ := objectWith_of_valueWith h
      exact Value.obeys_object.2 (hobject _ _ _ hfields)
    · by_cases harray : kind = .array
      · obtain rfl := harray
        obtain ⟨elements, rfl, helements⟩ := arrayWith_of_valueWith h
        refine Value.obeys_array.2 (Value.elementsObey_iff_forall.2 fun e he => ?_)
        obtain ⟨-, -, item, -, hitem⟩ := exists_item_of_arrayWith helements he
        obtain ⟨name, inner, -, hfield, helement, hinner⟩ := elementWith_eq_ok_iff.1 hitem
        exact ⟨hwrapper _ (Registry.mem_of_fieldByName hfield) helement, hobject _ _ _ hinner⟩
      · exact Value.obeys_of_isLeaf
          (Value.proper_of_leafOfJson? (leafOfJson?_of_valueWith hkind harray h)).1

theorem obeys_of_objectWith {rule : Rule} (hrule : rule.IsLocal)
    (hentry : ∀ fuel onlySigning member p,
      fieldOfMember context (valueWith context fuel) onlySigning member = .ok (some p) →
        rule.entry p.1 p.2 [])
    (hwrapper : ∀ f ∈ context.registry.fields, f.isElement = true → rule.wrapper f)
    {fuel : Nat} {j : Json} {fields : Object}
    (h : objectWith context (valueWith context fuel) onlySigning j = .ok fields) :
    Object.Obeys rule fields := by
  refine (Object.obeys_iff_forall hrule).2 fun p hp => ?_
  obtain ⟨member, hmember⟩ := exists_member_of_objectWith h hp
  obtain ⟨j', hj', -⟩ := exists_of_valueOfField (fieldOfMember_eq_some_iff.1 hmember).2.2.2.2.2
  exact ⟨hentry _ _ _ _ hmember, obeys_of_valueWith hrule hentry hwrapper hj'⟩

/-- The field of a member fits its value. -/
theorem fits_of_fieldOfMember {fuel : Nat} {member : String × Json} {p : Field × Value}
    (h : fieldOfMember context (valueWith context fuel) onlySigning member = .ok (some p)) :
    context.registry.Fits p.1 p.2 := by
  obtain ⟨-, hfield, hmarker, hs, -, hvalue⟩ := fieldOfMember_eq_some_iff.1 h
  obtain ⟨j', hj', -⟩ := exists_of_valueOfField hvalue
  obtain ⟨hkind, hproper⟩ := kind_of_valueWith hj'
  exact ⟨Registry.mem_of_fieldByName hfield, hs, hmarker, hkind, hproper⟩

end Plain

/-! ### Named values -/

/-- Words of fields with named values have names. -/
def Rule.named (registry : Registry) : Rule where
  entry f v _ := ∀ table, registry.enumTable? f.name = some table →
    ∃ n name, Plain.wordCode? v = some n ∧ table.nameOf? n = some name
  wrapper _ := True

theorem Rule.isLocal_named (registry : Registry) : (named registry).IsLocal := fun _ _ _ _ h => h

namespace Plain

variable {context : Context} {onlySigning : Bool}

private theorem eq_of_unsignedOfJson_int {kind : Kind} {maximum n : Nat} {code : Int}
    (h : Value.unsignedOfJson kind maximum (.int code) = .ok n) : (n : Int) = code := by
  unfold Value.unsignedOfJson at h
  simp only [Json.int, Number.uint64?] at h
  split at h
  · cases h
  · next m hm =>
    split at hm
    · next hrange =>
      cases hm
      split at h
      · cases h
        omega
      · cases h
    · cases hm

/-- A word that is read from a code has that code. -/
theorem wordCode?_of_leafOfJson? {book : AddressBook} {kind : Kind} {code : Int} {v : Value}
    (hkind : kind = .uint8 ∨ kind = .uint16 ∨ kind = .uint32)
    (h : Value.leafOfJson? book kind (.int code) = some (.ok v)) :
    ∃ n, wordCode? v = some n ∧ (n : Int) = code := by
  rcases hkind with rfl | rfl | rfl
  · obtain ⟨n, hn, hv⟩ := bind_eq_ok_iff.1 (Option.some.inj h)
    cases hv
    have hle := Value.le_of_unsignedOfJson hn
    refine ⟨n, ?_, eq_of_unsignedOfJson_int hn⟩
    rw [wordCode?, UInt8.toNat_ofNat_of_lt' (by change n < 256; omega)]
  · obtain ⟨n, hn, hv⟩ := bind_eq_ok_iff.1 (Option.some.inj h)
    cases hv
    have hle := Value.le_of_unsignedOfJson hn
    refine ⟨n, ?_, eq_of_unsignedOfJson_int hn⟩
    rw [wordCode?, UInt16.toNat_ofNat_of_lt' (by change n < 65536; omega)]
  · obtain ⟨n, hn, hv⟩ := bind_eq_ok_iff.1 (Option.some.inj h)
    cases hv
    have hle := Value.le_of_unsignedOfJson hn
    refine ⟨n, ?_, eq_of_unsignedOfJson_int hn⟩
    rw [wordCode?, UInt32.toNat_ofNat_of_lt' (by change n < 4294967296; omega)]

/-- The field of a member is named if it can have names. -/
theorem named_of_fieldOfMember (hregistry : context.registry.Regular) {fuel : Nat}
    {member : String × Json} {p : Field × Value}
    (h : fieldOfMember context (valueWith context fuel) onlySigning member = .ok (some p)) :
    (Rule.named context.registry).entry p.1 p.2 [] := by
  intro table htable
  obtain ⟨-, hfield, -, -, -, hvalue⟩ := fieldOfMember_eq_some_iff.1 h
  have hword := hregistry.named_word p.1 (Registry.mem_of_fieldByName hfield)
    (by rw [htable]; rfl)
  unfold valueOfField at hvalue
  rw [htable] at hvalue
  dsimp only at hvalue
  split at hvalue
  · cases hvalue
  · next code hcode =>
    obtain ⟨n, name, rfl, hname⟩ := exists_name_of_enumCode hcode
    have hvalue := withField_eq_ok_iff.1 hvalue
    cases fuel with
    | zero => cases hvalue
    | succ fuel =>
      have hobject : p.1.kind ≠ .object := by rcases hword with h | h | h <;> rw [h] <;> decide
      have harray : p.1.kind ≠ .array := by rcases hword with h | h | h <;> rw [h] <;> decide
      obtain ⟨m, hm, rfl⟩ :=
        wordCode?_of_leafOfJson? hword (leafOfJson?_of_valueWith hobject harray hvalue)
      exact ⟨m, name, hm, hname⟩

end Plain

namespace Object

variable {context : Context} {onlySigning : Bool} {j : Json} {fields : Object}

/-- The object of a plain value has fields that fit. -/
theorem fits_of_ofJson (h : ofJson context onlySigning j = .ok fields) :
    Obeys (.fits context.registry) fields :=
  Plain.obeys_of_objectWith (Rule.isLocal_fits _)
    (fun _ _ _ _ hmember => Plain.fits_of_fieldOfMember hmember)
    (fun _ hf helement => ⟨hf, helement⟩) h

/-- The object of a plain value has named fields with names. -/
theorem named_of_ofJson (hregistry : context.registry.Regular)
    (h : ofJson context onlySigning j = .ok fields) : Obeys (.named context.registry) fields :=
  Plain.obeys_of_objectWith (Rule.isLocal_named _)
    (fun _ _ _ _ hmember => Plain.named_of_fieldOfMember hregistry hmember)
    (fun _ _ _ => trivial) h

end Object

end FieldWire
