import FieldWire.Proofs.Plain.Expansion
import FieldWire.Proofs.Plain.Reading
import FieldWire.Proofs.Value.Normal

/-!
# The order of plain objects

Different written fields have different sort keys, and the keys of a plain object tell its fields
apart. So where no key occurs twice, the sort keys of the object that is read increase strictly, at
every level (`Object.ordered_of_ofJson`). That holds for every address book, because replacing extended
addresses repeats no key.
-/

namespace FieldWire

namespace Plain

variable {context : Context} {convert : Kind → Json → Except Error Value} {onlySigning : Bool}

private theorem expandFrom_of_unextended {book : AddressBook}
    (hbook : ∀ text, book.decodeExtended text = none) (given members : Members Json)
    (rest : List (String × Json)) : expandFrom book given members rest = .ok members := by
  induction rest with
  | nil => rfl
  | cons member rest ih =>
    have hextended : extended? book member.2 = none := by
      rw [extended?, funext hbook]
      exact Option.bind_fun_none _
    rw [expandFrom, hextended]
    exact ih

/-- Without extended addresses members stay as they are. -/
theorem expand_of_unextended {book : AddressBook}
    (hbook : ∀ text, book.decodeExtended text = none) (given : Members Json) :
    expand book given = .ok given :=
  expandFrom_of_unextended hbook given given given

theorem expand_hex (given : Members Json) : expand .hex given = .ok given :=
  expand_of_unextended (fun _ => rfl) given

/-- The fields of members have the members' names. -/
private theorem keys_eq_of_forall₂ {members : Members Json} {fields : Object}
    (h : List.Forall₂
      (fun m p => fieldOfMember context convert onlySigning m = .ok (some p)) members fields) :
    members.keys = fields.map fun p => p.1.name := by
  induction h with
  | nil => rfl
  | cons hmember _ ih =>
    have hname := Registry.name_of_fieldByName (fieldOfMember_eq_some_iff.1 hmember).2.1
    rw [Members.keys, List.map_cons, List.map_cons, hname]
    exact congrArg _ ih

/-- The fields of members with different keys are written ones of different names. -/
theorem written_of_collect {members : Members Json} (hkeys : members.keys.Nodup)
    {collected : Object}
    (h : collect (fieldOfMember context convert onlySigning) members = .ok collected) :
    (∀ p ∈ collected, p.1 ∈ context.registry.fields ∧ p.1.serialized = true) ∧
      (collected.map fun p => p.1.name).Nodup := by
  constructor
  · intro p hp
    obtain ⟨m, -, hm⟩ := exists_mem_of_collect h hp
    obtain ⟨-, hf, -, hs, -⟩ := fieldOfMember_eq_some_iff.1 hm
    exact ⟨Registry.mem_of_fieldByName hf, hs⟩
  · obtain ⟨kept, hkept, hrelated⟩ := exists_sublist_of_collect h
    rw [← keys_eq_of_forall₂ hrelated]
    exact (hkept.map Prod.fst).nodup hkeys

/-- The object of members with different keys is ordered if its values are. -/
private theorem ordered_of_objectWith (hregistry : context.registry.WellFormed)
    (hconvert : ∀ kind j v, j.KeysDistinct → convert kind j = .ok v → v.Obeys .ordered)
    {j : Json} (hj : j.KeysDistinct) {fields : Object}
    (h : objectWith context convert onlySigning j = .ok fields) :
    Object.Obeys .ordered fields := by
  obtain ⟨given, members, collected, rfl, hexpand, hcollected, rfl⟩ := objectWith_eq_ok_iff.1 h
  obtain ⟨hkeys, hvalues⟩ := Json.keysDistinct_obj.1 hj
  obtain ⟨hwritten, hnames⟩ :=
    written_of_collect (nodup_keys_expand hexpand hkeys) hcollected
  refine Object.ordered_sorted hregistry hwritten hnames fun p hp => ?_
  obtain ⟨m, hm, hmember⟩ := exists_mem_of_collect hcollected hp
  obtain ⟨j', hj', rfl | ⟨n, rfl⟩⟩ :=
    exists_of_valueOfField (fieldOfMember_eq_some_iff.1 hmember).2.2.2.2.2
  · refine hconvert _ _ _ ?_ hj'
    obtain hgiven | ⟨hleaf, -⟩ := mem_of_expand hexpand hm
    · exact hvalues m hgiven
    · exact Json.keysDistinct_of_leaf hleaf
  · exact hconvert _ (.int n) _ trivial hj'

/-- The value of a plain value without repeated keys is ordered. -/
theorem ordered_of_valueWith (hregistry : context.registry.WellFormed)
    {fuel : Nat} {kind : Kind} {j : Json} (hj : j.KeysDistinct) {v : Value}
    (h : valueWith context fuel kind j = .ok v) : v.Obeys .ordered := by
  induction fuel generalizing kind j v with
  | zero => cases h
  | succ fuel ih =>
    by_cases hobject : kind = .object
    · obtain rfl := hobject
      obtain ⟨fields, rfl, hfields⟩ := objectWith_of_valueWith h
      exact Value.obeys_object.2
        (ordered_of_objectWith hregistry (fun _ _ _ hj hv => ih hj hv) hj hfields)
    · by_cases harray : kind = .array
      · obtain rfl := harray
        obtain ⟨elements, rfl, helements⟩ := arrayWith_of_valueWith h
        refine Value.obeys_array.2 (Value.elementsObey_iff_forall.2 fun e he => ⟨trivial, ?_⟩)
        obtain ⟨items, rfl, item, hmem, hitem⟩ := exists_item_of_arrayWith helements he
        obtain ⟨name, inner, rfl, -, -, hinner⟩ := elementWith_eq_ok_iff.1 hitem
        have hdistinct := Json.keysDistinct_arr.1 hj _ hmem
        exact ordered_of_objectWith hregistry (fun _ _ _ hj hv => ih hj hv)
          ((Json.keysDistinct_obj.1 hdistinct).2 _ List.mem_cons_self) hinner
      · exact Value.obeys_of_isLeaf
          (Value.proper_of_leafOfJson? (leafOfJson?_of_valueWith hobject harray h)).1

end Plain

/-- The object of a plain value without repeated keys is ordered. -/
theorem Object.ordered_of_ofJson {context : Context} (hregistry : context.registry.WellFormed)
    {onlySigning : Bool} {j : Json} (hj : j.KeysDistinct) {fields : Object}
    (h : ofJson context onlySigning j = .ok fields) : Obeys .ordered fields :=
  Plain.ordered_of_objectWith hregistry
    (fun _ _ _ hj hv => Plain.ordered_of_valueWith hregistry hj hv) hj h

end FieldWire
