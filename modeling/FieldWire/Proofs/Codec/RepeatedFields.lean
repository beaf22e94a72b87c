import FieldWire.Proofs.Codec.RoundTrip
import FieldWire.Proofs.Plain.Alike.Leaf
import FieldWire.Proofs.Value.Steps
import Mathlib.Data.List.Perm.Subperm

/-!
# Fields that stand twice

A decoded object is read in two ways. The list of its fields, in the order of the wire, has a length
and a look-up that finds the first value of a name (`Object.get?`); the plain form has members, and
a field that is shown replaces the member of its name. `Object.ReadsAs` says that the two tell the
same. Whatever is shown, the members have the names of the fields, once each, with the *last* value
of every name (`Value.lookup_fieldsToJson`), so the two tell the same exactly if no name stands twice
(`Object.readsAs_iff_nodup_names`).

Bytes may hold a field twice, since the reader does not ask which fields are already taken. Fields
that are read are written ones of the registry (`Value.yields_written`), where a header has one name
and a name one header; so it is the headers at the outermost level that decide
(`Object.readsAs_iff_nodup_headers`), and two sequence numbers are read as the first of them, shown
as the second and counted as two (`Object.not_readsAs_sequences`).
-/

namespace FieldWire

variable {context : Context}

/-! ### The first value of a name, and the last -/

namespace Object

variable {fields : Object} {name : String} {v : Value}

/-- The names of the fields, in order. -/
def names (fields : Object) : List String := fields.map fun p => p.1.name

/-- The value of the last field of a name. -/
def last? (fields : Object) (name : String) : Option Value := get? fields.reverse name

theorem get?_cons (f : Field) (v : Value) (rest : Object) (name : String) :
    get? ((f, v) :: rest) name = if f.name = name then some v else get? rest name := by
  unfold get?
  rw [List.find?_cons]
  by_cases h : f.name = name <;> simp [h]

theorem get?_append (front rest : Object) (name : String) :
    get? (front ++ rest) name = (get? front name).or (get? rest name) := by
  rw [get?, List.find?_append, Option.map_or]
  rfl

/-- A field is the last one of its name, unless one behind it is. -/
theorem last?_cons (f : Field) (v : Value) (rest : Object) (name : String) :
    last? ((f, v) :: rest) name =
      (last? rest name).or (if f.name = name then some v else none) := by
  rw [last?, List.reverse_cons, get?_append, get?_cons]
  rfl

theorem mem_of_get?_eq_some (h : get? fields name = some v) :
    ∃ f, (f, v) ∈ fields ∧ f.name = name := by
  obtain ⟨⟨f, w⟩, hfind, hw⟩ := Option.map_eq_some_iff.1 h
  cases hw
  exact ⟨f, List.mem_of_find?_eq_some hfind, by simpa using List.find?_some hfind⟩

theorem get?_eq_none_iff : get? fields name = none ↔ name ∉ fields.names := by
  simp [get?, names]

/-- If no name stands twice, the first value of a name is the value of its field. -/
theorem get?_eq_some_iff_mem (hnames : fields.names.Nodup) :
    get? fields name = some v ↔ ∃ f, (f, v) ∈ fields ∧ f.name = name := by
  refine ⟨mem_of_get?_eq_some, ?_⟩
  rintro ⟨f, hmem, rfl⟩
  induction fields with
  | nil => cases hmem
  | cons p rest ih =>
    obtain ⟨g, w⟩ := p
    obtain ⟨hg, hrest⟩ := List.nodup_cons.1 hnames
    rw [get?_cons]
    obtain heq | hmem := List.mem_cons.1 hmem
    · cases heq
      rw [if_pos rfl]
    · have hne : g.name ≠ f.name := fun heq =>
        hg (List.mem_map.2 ⟨_, hmem, heq.symm⟩)
      rw [if_neg hne, ih hrest hmem]

/-- If no name stands twice, the last value of a name is the first one. -/
theorem last?_eq_get? (hnames : fields.names.Nodup) (name : String) :
    fields.last? name = fields.get? name := by
  have hreverse : (names fields.reverse).Nodup := by
    rw [names, List.map_reverse]
    exact List.nodup_reverse.2 hnames
  refine Option.ext fun v => ?_
  simp only [last?, get?_eq_some_iff_mem hreverse, get?_eq_some_iff_mem hnames, List.mem_reverse]

theorem last?_eq_none_iff : last? fields name = none ↔ name ∉ fields.names := by
  rw [last?, get?_eq_none_iff, names, List.map_reverse, List.mem_reverse, names]

end Object

/-! ### What is shown -/

namespace Value

/-- The plain value shows the value of a field of the name: by its name where values have names. -/
def IsShownAs (context : Context) (name : String) (v : Value) (j : Json) : Prop :=
  match context.registry.enumTable? name with
  | some table => ∃ n text, Plain.wordCode? v = some n ∧ table.nameOf? n = some text ∧ j = .str text
  | none => v.toJson context = .ok j

theorem fieldToJson_eq_ok_iff {f : Field} {v : Value} {j : Json} :
    fieldToJson context f v = .ok j ↔ v.IsShownAs context f.name j := by
  unfold fieldToJson IsShownAs
  cases context.registry.enumTable? f.name with
  | some table => exact enumName_eq_ok_iff
  | none => exact .rfl

/-- A shown field replaces the member of its name: no key stands twice, and each key has the last
value of its name. -/
theorem lookup_fieldsToJson {fields : Object} {members result : Members Json}
    (hkeys : members.keys.Nodup) (h : fieldsToJson context fields members = .ok result) :
    result.keys.Nodup ∧ ∀ name, match fields.last? name with
      | some v => ∃ j, Members.get? result name = some j ∧ v.IsShownAs context name j
      | none => Members.get? result name = Members.get? members name := by
  induction fields generalizing members with
  | nil =>
    rw [fieldsToJson] at h
    cases h
    exact ⟨hkeys, fun name => rfl⟩
  | cons p rest ih =>
    obtain ⟨f, v⟩ := p
    obtain ⟨j, hj, hrest⟩ := fieldsToJson_cons_eq_ok_iff.1 h
    obtain ⟨hnodup, hlookup⟩ := ih (Members.nodup_keys_insert hkeys f.name j) hrest
    refine ⟨hnodup, fun name => ?_⟩
    have hname := hlookup name
    rw [Object.last?_cons]
    cases hlast : Object.last? rest name with
    | some w =>
      rw [hlast] at hname
      exact hname
    | none =>
      rw [hlast] at hname
      dsimp only at hname
      rw [hname, Members.get?_insert, Option.none_or]
      by_cases heq : f.name = name
      · subst heq
        simp only [if_pos]
        exact ⟨j, rfl, fieldToJson_eq_ok_iff.1 hj⟩
      · simp only [if_neg heq]

end Value

/-! ### The two readings -/

namespace Object

variable {fields : Object} {members : Members Json}

/-- The list of fields and the members tell the same: they are as many, and every name is looked up
in both or in neither, with a value and what shows it. -/
structure ReadsAs (context : Context) (fields : Object) (members : Members Json) : Prop where
  /-- There are as many fields as keys. -/
  length_eq : fields.length = members.keys.length
  /-- The first field of a name has the value that the member shows. -/
  lookup : ∀ name,
    Option.Rel (Value.IsShownAs context name) (fields.get? name) (members.get? name)

/-- The members of a shown object have different keys and show the last value of every name. -/
theorem lookup_toJson {j : Json} (h : fields.toJson context = .ok j) :
    ∃ members : Members Json, j = .obj members ∧ members.keys.Nodup ∧ ∀ name,
      Option.Rel (Value.IsShownAs context name) (fields.last? name) (members.get? name) := by
  rw [toJson] at h
  obtain ⟨members, hmembers, rfl⟩ := map_eq_ok_iff.1 h
  have hnone : Members.keys ([] : Members Json) = [] := rfl
  obtain ⟨hkeys, hlookup⟩ := Value.lookup_fieldsToJson (hnone ▸ List.nodup_nil) hmembers
  refine ⟨members, rfl, hkeys, fun name => ?_⟩
  have hname := hlookup name
  cases hlast : fields.last? name with
  | some v =>
    rw [hlast] at hname
    obtain ⟨j, hj, hshown⟩ := hname
    rw [hj]
    exact .some hshown
  | none =>
    rw [hlast] at hname
    rw [hname]
    exact .none

/-- The two readings tell the same exactly if no name stands twice. -/
theorem readsAs_iff_nodup_names (hkeys : members.keys.Nodup) (hlookup : ∀ name,
      Option.Rel (Value.IsShownAs context name) (fields.last? name) (members.get? name)) :
    fields.ReadsAs context members ↔ fields.names.Nodup := by
  -- the keys are the names, as sets
  have hmem : ∀ name, name ∈ members.keys ↔ name ∈ fields.names := by
    intro name
    rw [← not_iff_not, ← Members.get?_eq_none_iff, ← last?_eq_none_iff]
    exact (eq_none_iff_of_rel (hlookup name)).symm
  have hlength : fields.length = fields.names.length := (List.length_map _).symm
  constructor
  · rintro ⟨hsame, -⟩
    have hsub : members.keys.Subperm fields.names :=
      hkeys.subperm fun name hname => (hmem name).1 hname
    exact (hsub.perm_of_length_le (by omega)).nodup_iff.1 hkeys
  · intro hnames
    refine ⟨?_, fun name => last?_eq_get? hnames name ▸ hlookup name⟩
    rw [hlength]
    exact ((List.perm_ext_iff_of_nodup hnames hkeys).2 fun name => (hmem name).symm).length_eq

end Object

/-! ### Fields of bytes -/

namespace Value

variable {registry : Registry} {limit depth : Nat}

/-- The fields of an object that is read are written fields of the registry. -/
theorem yields_written (fuel : Nat) (inner : Bool) (taken : Object)
    (htaken : ∀ p ∈ taken, p.1 ∈ registry.fields ∧ p.1.serialized = true) :
    (readFields registry limit fuel inner taken).Yields depth fun _ fields =>
      ∀ p ∈ fields, p.1 ∈ registry.fields ∧ p.1.serialized = true := by
  induction fuel generalizing taken with
  | zero =>
    rw [readFields]
    exact .throw _
  | succ fuel ih =>
    obtain ⟨hfields, helements⟩ := isStepwise_nested registry limit fuel
    have hdone := fun p hp => htaken p (List.mem_reverse.1 hp)
    rw [readFields]
    refine Reader.Yields.get.nil_bind fun _ _ => ?_
    split
    · exact .pure hdone
    · refine Registry.yields_readField.bind ?_
      rintro _ f ⟨-, hmem, hs⟩
      split
      · exact .pure hdone
      · split
        · exact .throw _
        · have hvalue := isStepwise_readOfFieldWith (f := f) (isStepwise_readWith
            (hfields true []).nested (helements []).nested f.kind)
          exact hvalue.yields.bind fun _ v _ =>
            ih ((f, v) :: taken) (List.forall_mem_cons.2 ⟨⟨hmem, hs⟩, htaken⟩)

end Value

namespace Object

variable {fields : Object} {limit : Nat} {bytes : List UInt8}

/-- The fields of a byte string are written fields of the registry. -/
theorem written_of_ofBytes {registry : Registry} (h : ofBytes registry limit bytes = .ok fields) :
    ∀ p ∈ fields, p.1 ∈ registry.fields ∧ p.1.serialized = true := by
  rw [ofBytes] at h
  split at h
  · next result c hroot =>
    cases h
    have hread : Value.readFields registry limit (bytes.length + 1) false [] (Cursor.start bytes) =
        .ok fields c := hroot
    obtain ⟨-, -, -, -, hfields⟩ :=
      Value.yields_written (bytes.length + 1) false [] (List.forall_mem_nil _) _ _ _ rfl hread
    exact hfields
  · cases h

/-- Written fields of a registry share a name exactly where they share a header. -/
theorem nodup_names_iff {registry : Registry} (hregistry : registry.WellFormed)
    (hwritten : ∀ p ∈ fields, p.1 ∈ registry.fields ∧ p.1.serialized = true) :
    fields.names.Nodup ↔ (fields.map fun p => p.1.header).Nodup := by
  simp only [names, List.Nodup, List.pairwise_map]
  refine List.Pairwise.iff_of_mem fun {p q} hp hq => not_congr ?_
  obtain ⟨hp, hps⟩ := hwritten p hp
  obtain ⟨hq, hqs⟩ := hwritten q hq
  exact ⟨fun h => congrArg Field.header (hregistry.eq_of_name hp hq h),
    fun h => congrArg Field.name (hregistry.eq_of_header hp hq hps hqs h)⟩

/-- **A decoded object reads as its plain form exactly if no field stands in it twice**, by the
headers of its outermost fields. In any case the plain form has the keys of the object, once each,
and shows the last value of every name, where the list of fields finds the first one. -/
theorem readsAs_iff_nodup_headers {registry : Registry} {book : AddressBook}
    (haccepted : registry.Accepted) (hread : ofBytes registry limit bytes = .ok fields) {j : Json}
    (hshown : fields.toJson ⟨registry, book⟩ = .ok j) :
    ∃ members : Members Json, j = .obj members ∧ members.keys.Nodup ∧
      (∀ name, Option.Rel (Value.IsShownAs ⟨registry, book⟩ name) (fields.last? name)
        (members.get? name)) ∧
      (fields.ReadsAs ⟨registry, book⟩ members ↔ (fields.map fun p => p.1.header).Nodup) := by
  obtain ⟨members, rfl, hkeys, hlookup⟩ := lookup_toJson hshown
  exact ⟨members, rfl, hkeys, hlookup, (readsAs_iff_nodup_names hkeys hlookup).trans
    (nodup_names_iff haccepted.wellFormed (written_of_ofBytes hread))⟩

/-! ### Two sequence numbers -/

/-- The bundled field for a sequence number. -/
def sequenceField : Field := ⟨"Sequence", .uint32, ⟨2, 4⟩, false, true, true⟩

/-- Sequence numbers, one field for each. -/
def sequences (numbers : List UInt32) : Object := numbers.map fun n => (sequenceField, .uint32 n)

/-- The bundled registry, with accounts in hexadecimal digits. -/
abbrev bundledContext : Context := ⟨.bundled, .hex⟩

/-- Sequence numbers are read one after the other. -/
private theorem ofBytes_sequences {numbers : List UInt32} {bytes : List UInt8}
    (hdepth : nesting (sequences numbers) ≤ defaultMaxDepth)
    (hbytes : toBytes (sequences numbers) = .ok bytes) :
    ofBytes Registry.bundled defaultMaxDepth bytes = .ok (sequences numbers) := by
  have hmem : sequenceField ∈ Registry.bundled.fields := by
    refine (Registry.mem_loadFields_iff (Registry.of_load_eq_ok Registry.load_bundled).1).2
      ⟨⟨"Sequence", 4, false, true, true, "UInt32"⟩, ?_, ?_⟩
    · decide +kernel
    · rfl
  have hobeys : ∀ rule : Rule, rule.IsLocal →
      (∀ n, rule.entry sequenceField (.uint32 n) []) → Obeys rule (sequences numbers) := by
    intro rule hlocal hentry
    refine (obeys_iff_forall hlocal).2 fun p hp => ?_
    obtain ⟨n, -, rfl⟩ := List.mem_map.1 hp
    exact ⟨hentry n, trivial⟩
  refine ofBytes_of_toBytes Registry.regular_bundled ?_ ?_ hdepth hbytes
  · exact hobeys _ (Rule.isLocal_fits _) fun n => ⟨hmem, rfl, by decide, rfl, trivial⟩
  · exact hobeys _ Rule.isLocal_unmarked fun n => trivial

private theorem fieldToJson_sequence (n : UInt32) :
    Value.fieldToJson bundledContext sequenceField (.uint32 n) = .ok (.nat n.toNat) := by
  have hnames : Registry.bundled.enumTable? sequenceField.name = none := by
    simp [Registry.enumTable?, sequenceField]
  rw [Value.fieldToJson, hnames]
  rfl

/-- One sequence number reads as its plain form. -/
theorem readsAs_sequence :
    ofBytes Registry.bundled defaultMaxDepth [0x24, 0, 0, 0, 1] = .ok (sequences [1]) ∧
      (sequences [1]).toJson bundledContext = .ok (.obj [("Sequence", .nat 1)]) ∧
      (sequences [1]).ReadsAs bundledContext [("Sequence", .nat 1)] := by
  have hread := @ofBytes_sequences [1] _ (by decide) rfl
  have hshown : (sequences [1]).toJson bundledContext = .ok (.obj [("Sequence", .nat 1)]) :=
    map_eq_ok_iff.2 ⟨_, Value.fieldsToJson_cons_eq_ok_iff.2 ⟨_, fieldToJson_sequence 1, rfl⟩, rfl⟩
  obtain ⟨members, hmembers, -, -, hiff⟩ :=
    readsAs_iff_nodup_headers Registry.regular_bundled.accepted hread hshown
  cases hmembers
  exact ⟨hread, hshown, hiff.2 (by decide)⟩

/-- **Two sequence numbers do not read as their plain form.** They are counted as two, and the first
of them is looked up, where the plain form has the second one alone. -/
theorem not_readsAs_sequences :
    Registry.bundled.Accepted ∧
      ofBytes Registry.bundled defaultMaxDepth [0x24, 0, 0, 0, 1, 0x24, 0, 0, 0, 2] =
        .ok (sequences [1, 2]) ∧
      (sequences [1, 2]).toJson bundledContext = .ok (.obj [("Sequence", .nat 2)]) ∧
      (sequences [1, 2]).length = 2 ∧ (sequences [1, 2]).get? "Sequence" = some (.uint32 1) ∧
      ¬(sequences [1, 2]).ReadsAs bundledContext [("Sequence", .nat 2)] := by
  refine ⟨Registry.regular_bundled.accepted, ofBytes_sequences (by decide) rfl, ?_, rfl, rfl, ?_⟩
  · exact map_eq_ok_iff.2 ⟨_, Value.fieldsToJson_cons_eq_ok_iff.2 ⟨_, fieldToJson_sequence 1,
      Value.fieldsToJson_cons_eq_ok_iff.2 ⟨_, fieldToJson_sequence 2, rfl⟩⟩, rfl⟩
  · intro h
    exact absurd h.length_eq (by decide)

end Object

end FieldWire
