import FieldWire.Proofs.Outcome
import FieldWire.Proofs.Wire.Framing
import FieldWire.Registry.Load
import Mathlib.Data.List.Pairwise
import Mathlib.Tactic.ByContra

/-!
# What loading a schema guarantees

A registry is *accepted* when it is loaded from a schema whose tables of named values give every
name once, which all schemas of documents do (`Registry.accepted_of_ofText`). Loading looks at the
entries one by one: an entry of a supported type is resolved to a field that it describes
(`SchemaField.Describes`), and a field that joins those already taken differs from each of them in
its name, and in its header when both are written (`addField_eq_ok_iff`). Carried along all entries,
this tells what loading does (`Registry.loadFields_eq_ok_iff`) and makes an accepted registry *well
formed* (`Registry.Accepted.wellFormed`): fields are determined by their names, written ones by
their headers, and look-ups find exactly the fields that are there.
-/

namespace FieldWire

/-- Headers that fit two bytes are told apart by their sort keys. -/
theorem Header.eq_of_ordinal {g h : Header} (hg : g.InRange) (hh : h.InRange)
    (heq : g.ordinal = h.ordinal) : g = h := by
  obtain ⟨gt, gf⟩ := g
  obtain ⟨ht, hf⟩ := h
  simp only [ordinal, InRange] at heq hg hh
  simp only [Header.mk.injEq]
  omega

/-! ### Tables of named values -/

namespace Members

variable {β : Type}

theorem get?_eq_some_of_mem {members : Members β} (h : members.keys.Nodup) {key : String}
    {value : β} (hmem : (key, value) ∈ members) : get? members key = some value := by
  induction members with
  | nil => cases hmem
  | cons m rest ih =>
    obtain ⟨k, v⟩ := m
    rw [keys, List.map_cons, List.nodup_cons] at h
    rw [get?_cons]
    rcases List.mem_cons.1 hmem with heq | hrest
    · cases heq
      rw [if_pos rfl]
    · have hne : k ≠ key := by
        rintro rfl
        exact h.1 (List.mem_map.2 ⟨_, hrest, rfl⟩)
      rw [if_neg hne, ih h.2 hrest]

theorem mem_of_get?_eq_some {members : Members β} {key : String} {value : β}
    (h : get? members key = some value) : (key, value) ∈ members := by
  induction members with
  | nil => cases h
  | cons m rest ih =>
    obtain ⟨k, v⟩ := m
    rw [get?_cons] at h
    split at h
    · next hk =>
      cases h
      exact hk ▸ List.mem_cons_self
    · exact List.mem_cons_of_mem _ (ih h)

/-- If no key is repeated, a look-up finds the member of the key. -/
theorem get?_eq_some_iff_mem {members : Members β} (h : members.keys.Nodup) {key : String}
    {value : β} : get? members key = some value ↔ (key, value) ∈ members :=
  ⟨mem_of_get?_eq_some, get?_eq_some_of_mem h⟩

theorem nodup_keys_insert {members : Members β} (h : members.keys.Nodup) (key : String)
    (value : β) : (keys (insert key value members)).Nodup := by
  rw [keys_insert]
  split
  · exact h
  · next hnew =>
    refine List.nodup_append.2 ⟨h, List.pairwise_singleton _ key, fun a ha b hb => ?_⟩
    rintro rfl
    exact hnew (List.mem_singleton.1 hb ▸ ha)

theorem nodup_keys_merge (members : Members β) : (keys (merge members)).Nodup :=
  List.foldlRecOn (motive := fun done => (keys done).Nodup) members _ List.nodup_nil
    fun _ hdone m _ => nodup_keys_insert hdone m.1 m.2

end Members

namespace EnumTable

/-- No name stands in the table twice. -/
def NamesDistinct (table : EnumTable) : Prop := (Members.keys table.entries).Nodup

/-- The name of a code has that code. -/
theorem codeOf?_of_nameOf? {table : EnumTable} (h : table.NamesDistinct) {code : Int}
    {name : String} (hname : table.nameOf? code = some name) : table.codeOf? name = some code :=
  Members.get?_eq_some_of_mem h (mem_of_nameOf?_eq_some hname)

/-- A code that stands for a name has one, perhaps another one. -/
theorem exists_nameOf?_of_codeOf? {table : EnumTable} {code : Int} {name : String}
    (h : table.codeOf? name = some code) : ∃ first, table.nameOf? code = some first := by
  have hmem : (name, code) ∈ table.entries := Members.mem_of_get?_eq_some h
  have hfind : (table.entries.find? fun e => e.2 = code).isSome :=
    List.find?_isSome.2 ⟨_, hmem, by simp⟩
  obtain ⟨e, he⟩ := Option.isSome_iff_exists.1 hfind
  exact ⟨e.1, by rw [nameOf?, he, Option.map_some]⟩

end EnumTable

/-- No table of named values of the schema gives a name twice. -/
def Schema.NamesDistinct (schema : Schema) : Prop :=
  (Members.keys schema.transactionTypes).Nodup ∧ (Members.keys schema.transactionResults).Nodup ∧
    (Members.keys schema.ledgerEntryTypes).Nodup

/-- The type of the entry is a supported kind. -/
def SchemaField.isSupported (entry : SchemaField) : Bool := (Kind.ofName? entry.type).isSome

/-- The field has all that the entry says: its name, type, number and properties. -/
structure SchemaField.Describes (entry : SchemaField) (f : Field) : Prop where
  /-- The name is that of the entry. -/
  name : f.name = entry.name
  /-- The kind is the one that the type names. -/
  kind : f.kind.name = entry.type
  /-- The code among the fields of the type is the number of the entry. -/
  fieldCode : (f.header.fieldCode : Int) = entry.nth
  /-- The length stands before the value if the entry says so. -/
  variableLength : f.variableLength = entry.variableLength
  /-- The field is written if the entry says so. -/
  serialized : f.serialized = entry.serialized
  /-- Signatures cover the field if the entry says so. -/
  signing : f.signing = entry.signing

namespace Registry

/-- The registry is loaded from a schema that gives every named value once. -/
def Accepted (registry : Registry) : Prop :=
  ∃ schema : Schema, schema.NamesDistinct ∧ load schema = .ok registry

/-! ### Schemas of documents -/

private theorem nodup_keys_codes? {j : Json} {codes : Members Int}
    (h : Schema.codes? j = some codes) : codes.keys.Nodup := by
  simp only [Schema.codes?, Option.bind_eq_bind, Option.bind_eq_some_iff] at h
  obtain ⟨members, -, given, -, hcodes⟩ := h
  cases hcodes
  exact Members.nodup_keys_merge given

private theorem nodup_keys_optionalCodes? {j : Option Json} {codes : Members Int}
    (h : Schema.optionalCodes? j = some codes) : codes.keys.Nodup := by
  cases j with
  | none =>
    cases h
    exact List.nodup_nil
  | some j => exact nodup_keys_codes? h

/-- The tables of the schema of a document are read from objects, the last three if given. -/
private theorem codes_of_ofJson? {document : Json} {schema : Schema}
    (h : Schema.ofJson? document = some schema) :
    (∃ j, Schema.codes? j = some schema.types) ∧
      (∃ j, Schema.optionalCodes? j = some schema.transactionTypes) ∧
        (∃ j, Schema.optionalCodes? j = some schema.transactionResults) ∧
          ∃ j, Schema.optionalCodes? j = some schema.ledgerEntryTypes := by
  simp only [Schema.ofJson?, Option.bind_eq_bind, Option.bind_eq_some_iff] at h
  obtain ⟨members, -, h⟩ := h
  split at h
  · simp only [Option.bind_eq_some_iff] at h
    obtain ⟨types, htypes, list, -, fields, -, transactions, ht, results, hr, ledger, hl, h⟩ := h
    cases h
    exact ⟨⟨_, htypes⟩, ⟨_, ht⟩, ⟨_, hr⟩, ⟨_, hl⟩⟩
  · cases h

/-- The schema of a document gives every type once. -/
theorem nodup_keys_types {document : Json} {schema : Schema}
    (h : Schema.ofJson? document = some schema) : schema.types.keys.Nodup := by
  obtain ⟨⟨j, hj⟩, -⟩ := codes_of_ofJson? h
  exact nodup_keys_codes? hj

/-- The schema of a document gives every named value once. -/
theorem namesDistinct_of_ofJson? {document : Json} {schema : Schema}
    (h : Schema.ofJson? document = some schema) : schema.NamesDistinct := by
  obtain ⟨-, ⟨_, ht⟩, ⟨_, hr⟩, ⟨_, hl⟩⟩ := codes_of_ofJson? h
  exact ⟨nodup_keys_optionalCodes? ht, nodup_keys_optionalCodes? hr, nodup_keys_optionalCodes? hl⟩

/-- The registry of a schema document is accepted. -/
theorem accepted_of_ofDocument {document : Json} {registry : Registry}
    (h : ofDocument document = .ok registry) : registry.Accepted := by
  unfold ofDocument at h
  split at h
  · cases h
  · next schema hschema =>
    cases hload : load schema with
    | error fault =>
      rw [hload] at h
      cases h
    | ok loaded =>
      rw [hload] at h
      cases h
      exact ⟨schema, namesDistinct_of_ofJson? hschema, hload⟩

/-- The registry of the text of a schema document is accepted. -/
theorem accepted_of_ofText {text : String} {registry : Registry}
    (h : ofText text = .ok registry) : registry.Accepted := by
  unfold ofText at h
  split at h
  · cases h
  · exact accepted_of_ofDocument h

/-! ### Codes and entries -/

private theorem range_of_headerCodes {types : Members Int} {type : String} {code : Nat}
    (h : Members.get? (headerCodes types) type = some code) : 1 ≤ code ∧ code ≤ 255 := by
  obtain ⟨⟨name, given⟩, -, hentry⟩ := List.mem_filterMap.1 (Members.mem_of_get?_eq_some h)
  simp only at hentry
  split at hentry
  · cases hentry
    omega
  · cases hentry

/-- The types whose code fits a header have it from a table that gives every type once. -/
theorem get?_headerCodes {types : Members Int} (h : types.keys.Nodup) {type : String}
    {code : Nat} : Members.get? (headerCodes types) type = some code ↔
      Members.get? types type = some (code : Int) ∧ 1 ≤ code ∧ code ≤ 255 := by
  have hkeys : (headerCodes types).keys.Nodup := by
    refine List.pairwise_map.2 (List.pairwise_filterMap.2 ?_)
    refine (List.pairwise_map.1 h).imp fun {a b} hne a' ha b' hb => ?_
    simp only [Option.ite_none_right_eq_some, Option.some.injEq] at ha hb
    rw [← ha.2, ← hb.2]
    exact hne
  rw [Members.get?_eq_some_iff_mem hkeys, Members.get?_eq_some_iff_mem h]
  simp only [headerCodes, List.mem_filterMap, Prod.exists, Option.ite_none_right_eq_some,
    Option.some.injEq, Prod.mk.injEq]
  constructor
  · rintro ⟨_, given, hgiven, hrange, rfl, rfl⟩
    rw [Int.toNat_of_nonneg (by omega)]
    exact ⟨hgiven, by omega⟩
  · rintro ⟨hgiven, hrange⟩
    exact ⟨_, _, hgiven, by omega, rfl, Int.toNat_natCast code⟩

section Resolve

variable {codes : Members Nat} {entry : SchemaField} {f : Field}

/-- An entry is passed over if its type is not supported. -/
theorem resolve_eq_none_iff : resolve codes entry = .ok none ↔ entry.isSupported = false := by
  unfold resolve SchemaField.isSupported
  cases Kind.ofName? entry.type with
  | none => exact iff_of_true rfl rfl
  | some kind =>
    refine iff_of_false ?_ nofun
    dsimp only
    split
    · nofun
    · split_ifs <;> nofun

theorem isSupported_of_resolve (h : resolve codes entry ≠ .ok none) : entry.isSupported = true :=
  eq_true_of_ne_false fun hnot => h (resolve_eq_none_iff.2 hnot)

/-- A field that an entry is resolved to is described by the entry, has the code of its type, and
is written only with a number that fits a byte. -/
theorem of_resolve_eq_some (h : resolve codes entry = .ok (some f)) :
    entry.Describes f ∧ Members.get? codes entry.type = some f.header.typeCode ∧
      (entry.serialized = true → 1 ≤ entry.nth ∧ entry.nth ≤ 255) := by
  unfold resolve at h
  split at h
  · cases h
  · next kind hkind =>
    split at h
    · cases h
    · next code hcode =>
      split_ifs at h with hwritten hnth
      cases h
      refine ⟨⟨rfl, Kind.ofName?_eq_some_iff.1 hkind, ?_, rfl, rfl, rfl⟩, hcode, fun hs => ?_⟩
      · exact Int.toNat_of_nonneg hnth.1
      · by_contra hout
        exact hwritten ⟨hs, hout⟩

end Resolve

/-- A written field has a header of two codes that fit a byte. -/
theorem inRange_of_resolve {types : Members Int} {entry : SchemaField} {f : Field}
    (h : resolve (headerCodes types) entry = .ok (some f)) (hf : f.serialized = true) :
    f.header.InRange := by
  obtain ⟨hentry, hcode, hnth⟩ := of_resolve_eq_some h
  obtain ⟨hlow, hhigh⟩ := range_of_headerCodes hcode
  have hrange := hnth (hentry.serialized ▸ hf)
  rw [← hentry.fieldCode] at hrange
  exact ⟨hlow, hhigh, by omega, by omega⟩

/-! ### Fields one by one -/

/-- Two fields can stand in one registry: their names differ, and their headers do when both are
written. -/
def Compatible (f g : Field) : Prop :=
  f.name ≠ g.name ∧ (f.serialized = true → g.serialized = true → f.header ≠ g.header)

instance : Std.Symm Compatible :=
  ⟨fun _ _ h => ⟨h.1.symm, fun hg hf => (h.2 hf hg).symm⟩⟩

/-- A field joins those already taken if it is compatible with each of them. -/
theorem addField_eq_ok_iff {taken taken' : List Field} {f : Field} :
    addField taken f = .ok taken' ↔ taken' = f :: taken ∧ ∀ g ∈ taken, Compatible g f := by
  unfold addField
  split
  · next hname =>
    obtain ⟨g, hg, hsame⟩ := List.any_eq_true.1 hname
    refine ⟨nofun, fun h => absurd (of_decide_eq_true hsame) (h.2 g hg).1⟩
  · next hname =>
    have hnames : ∀ g ∈ taken, g.name ≠ f.name := by simpa using hname
    split
    · next previous hprevious =>
      have hclash := List.find?_some hprevious
      simp only [Bool.and_eq_true, decide_eq_true_eq] at hclash
      refine ⟨nofun, fun h => ?_⟩
      exact absurd hclash.2 ((h.2 previous (List.mem_of_find?_eq_some hprevious)).2
        hclash.1.2 hclash.1.1)
    · next hnone =>
      have hheaders := List.find?_eq_none.1 hnone
      simp only [Bool.and_eq_true, decide_eq_true_eq, not_and] at hheaders
      refine ⟨fun h => ?_, fun h => by rw [h.1]⟩
      cases h
      exact ⟨rfl, fun g hg => ⟨hnames g hg, fun hgs hfs => hheaders g hg ⟨hfs, hgs⟩⟩⟩

section LoadFields

variable {codes : Members Nat} {entries : List SchemaField} {fields : List Field}

/-- The entries of supported types are resolved in order, and their fields are compatible with each
other and with those already taken. -/
theorem loadFields_eq_ok_iff {taken : List Field} :
    loadFields codes taken entries = .ok fields ↔ ∃ added,
      List.Forall₂ (fun entry f => resolve codes entry = .ok (some f))
          (entries.filter (·.isSupported)) added ∧
        (added.Pairwise Compatible ∧ ∀ g ∈ taken, ∀ f ∈ added, Compatible g f) ∧
          fields = taken.reverse ++ added := by
  induction entries generalizing taken with
  | nil => simp [loadFields, eq_comm]
  | cons entry rest ih =>
    rw [loadFields]
    cases hresolve : resolve codes entry with
    | error fault =>
      rw [List.filter_cons_of_pos (isSupported_of_resolve (by rw [hresolve]; nofun))]
      refine ⟨nofun, ?_⟩
      rintro ⟨_, hadded, -⟩
      obtain ⟨f, _, hf, -⟩ := List.forall₂_cons_left_iff.1 hadded
      cases hresolve.symm.trans hf
    | ok found =>
      cases found with
      | none =>
        rw [List.filter_cons_of_neg (by simp [resolve_eq_none_iff.1 hresolve])]
        exact ih
      | some f =>
        rw [List.filter_cons_of_pos (isSupported_of_resolve (by rw [hresolve]; nofun))]
        simp only [List.forall₂_cons_left_iff, hresolve, Except.ok.injEq, Option.some.injEq]
        constructor
        · intro h
          split at h
          · cases h
          · next taken' hadd =>
            obtain ⟨rfl, hnew⟩ := addField_eq_ok_iff.1 hadd
            obtain ⟨added, hadded, ⟨hpairwise, hcompatible⟩, rfl⟩ := ih.1 h
            obtain ⟨hf, htaken⟩ := List.forall_mem_cons.1 hcompatible
            refine ⟨f :: added, ⟨f, added, rfl, hadded, rfl⟩, ⟨?_, fun g hg => ?_⟩, by simp⟩
            · exact List.pairwise_cons.2 ⟨hf, hpairwise⟩
            · exact List.forall_mem_cons.2 ⟨hnew g hg, htaken g hg⟩
        · rintro ⟨_, ⟨_, added, rfl, hadded, rfl⟩, ⟨hpairwise, hcompatible⟩, rfl⟩
          obtain ⟨hf, hrest⟩ := List.pairwise_cons.1 hpairwise
          have hnew : addField taken f = .ok (f :: taken) :=
            addField_eq_ok_iff.2 ⟨rfl, fun g hg => hcompatible g hg f List.mem_cons_self⟩
          rw [hnew]
          refine ih.2 ⟨added, hadded, ⟨hrest, List.forall_mem_cons.2 ⟨hf, fun g hg => ?_⟩⟩, by simp⟩
          exact fun f' hf' => hcompatible g hg f' (List.mem_cons_of_mem f hf')

/-- The fields of a schema are those of its supported entries, in order, and compatible. -/
theorem loadFields_nil_eq_ok_iff : loadFields codes [] entries = .ok fields ↔
    List.Forall₂ (fun entry f => resolve codes entry = .ok (some f))
        (entries.filter (·.isSupported)) fields ∧ fields.Pairwise Compatible := by
  rw [loadFields_eq_ok_iff]
  simp

/-- The fields of a schema are those that entries are resolved to. -/
theorem mem_loadFields_iff (h : loadFields codes [] entries = .ok fields) {f : Field} :
    f ∈ fields ↔ ∃ entry ∈ entries, resolve codes entry = .ok (some f) := by
  obtain ⟨hresolved, -⟩ := loadFields_nil_eq_ok_iff.1 h
  constructor
  · intro hf
    obtain ⟨entry, hentry, hresolve⟩ := exists_left_of_forall₂ hresolved hf
    exact ⟨entry, List.mem_of_mem_filter hentry, hresolve⟩
  · rintro ⟨entry, hentry, hresolve⟩
    have hsupported : entry.isSupported = true :=
      isSupported_of_resolve (by rw [hresolve]; nofun)
    obtain ⟨g, hg, hresolve'⟩ :=
      exists_right_of_forall₂ hresolved (List.mem_filter.2 ⟨hentry, hsupported⟩)
    cases hresolve.symm.trans hresolve'
    exact hg

end LoadFields

private theorem checkMarker_eq_ok {fields : List Field} {name : String} {byte : UInt8}
    (h : checkMarker fields name byte = .ok ()) :
    ∃ f ∈ fields, f.name = name ∧ f.header.bytes = [byte] := by
  unfold checkMarker at h
  split at h
  · cases h
  · next f hfind =>
    split at h
    · next hbytes =>
      exact ⟨f, List.mem_of_find?_eq_some hfind, by simpa using List.find?_some hfind, hbytes⟩
    · cases h

/-! ### Well-formed registries -/

/-- Fields are determined by their names, written ones by headers of two bytes; the fields of the
end markers have the markers as headers, and no table of named values gives a name twice. -/
structure WellFormed (registry : Registry) : Prop where
  /-- Fields of one name, or written ones of one header, are the same. -/
  compatible : registry.fields.Pairwise Compatible
  /-- The codes of written fields fit a byte. -/
  inRange : ∀ f ∈ registry.fields, f.serialized = true → f.header.InRange
  /-- There is a field for the end of objects. -/
  objectEnd : ∃ f ∈ registry.fields, f.name = objectEndName ∧ f.header.bytes = [objectEnd]
  /-- There is a field for the end of arrays. -/
  arrayEnd : ∃ f ∈ registry.fields, f.name = arrayEndName ∧ f.header.bytes = [arrayEnd]
  /-- Named values are given once. -/
  namesDistinct : ∀ name table, registry.enumTable? name = some table → table.NamesDistinct

/-- What a schema that loads has become. -/
theorem of_load_eq_ok {schema : Schema} {registry : Registry} (h : load schema = .ok registry) :
    loadFields (headerCodes schema.types) [] schema.fields = .ok registry.fields ∧
      checkMarker registry.fields objectEndName FieldWire.objectEnd = .ok () ∧
      checkMarker registry.fields arrayEndName FieldWire.arrayEnd = .ok () ∧
      registry.transactionTypes = ⟨schema.transactionTypes⟩ ∧
      registry.transactionResults = ⟨schema.transactionResults⟩ ∧
      registry.ledgerEntryTypes = ⟨schema.ledgerEntryTypes⟩ := by
  simp only [load, bind, Except.bind] at h
  split at h
  · cases h
  · next fields hfields =>
    split at h
    · cases h
    · next hobject =>
      split at h
      · cases h
      · next harray =>
        cases h
        exact ⟨hfields, hobject, harray, rfl, rfl, rfl⟩

/-- An accepted registry is well formed. -/
theorem Accepted.wellFormed {registry : Registry} (h : registry.Accepted) :
    registry.WellFormed := by
  obtain ⟨schema, hnames, hload⟩ := h
  obtain ⟨hfields, hobject, harray, htransactions, hresults, hledger⟩ := of_load_eq_ok hload
  refine ⟨(loadFields_nil_eq_ok_iff.1 hfields).2, fun f hf hs => ?_, checkMarker_eq_ok hobject,
    checkMarker_eq_ok harray, fun name table htable => ?_⟩
  · obtain ⟨entry, -, hresolve⟩ := (mem_loadFields_iff hfields).1 hf
    exact inRange_of_resolve hresolve hs
  · unfold enumTable? at htable
    split_ifs at htable <;> cases htable
    · rw [htransactions]
      exact hnames.1
    · rw [hresults]
      exact hnames.2.1
    · rw [hledger]
      exact hnames.2.2

namespace WellFormed

variable {registry : Registry}

private theorem eq_of_clash (h : registry.WellFormed) {f g : Field} (hf : f ∈ registry.fields)
    (hg : g ∈ registry.fields) (hclash : ¬Compatible f g) : f = g := by
  by_contra hne
  exact hclash (h.compatible.forall hf hg hne)

/-- Fields of one name are the same. -/
theorem eq_of_name (h : registry.WellFormed) {f g : Field} (hf : f ∈ registry.fields)
    (hg : g ∈ registry.fields) (hname : f.name = g.name) : f = g :=
  h.eq_of_clash hf hg fun hc => hc.1 hname

/-- Written fields of one header are the same. -/
theorem eq_of_header (h : registry.WellFormed) {f g : Field} (hf : f ∈ registry.fields)
    (hg : g ∈ registry.fields) (hfs : f.serialized = true) (hgs : g.serialized = true)
    (hheader : f.header = g.header) : f = g :=
  h.eq_of_clash hf hg fun hc => hc.2 hfs hgs hheader

/-- Written fields are told apart by their sort keys. -/
theorem eq_of_ordinal (h : registry.WellFormed) {f g : Field} (hf : f ∈ registry.fields)
    (hg : g ∈ registry.fields) (hfs : f.serialized = true) (hgs : g.serialized = true)
    (heq : f.ordinal = g.ordinal) : f = g :=
  h.eq_of_header hf hg hfs hgs
    (Header.eq_of_ordinal (h.inRange f hf hfs) (h.inRange g hg hgs) heq)

/-- Looking up a name finds the field that has it. -/
theorem fieldByName_eq_ok_iff (h : registry.WellFormed) {name : String} {f : Field} :
    registry.fieldByName name = .ok f ↔ f ∈ registry.fields ∧ f.name = name := by
  refine ⟨fun hf => ⟨mem_of_fieldByName hf, name_of_fieldByName hf⟩, ?_⟩
  rintro ⟨hmem, rfl⟩
  cases hfind : registry.fieldByName f.name with
  | error e =>
    unfold fieldByName at hfind
    split at hfind
    · cases hfind
    · next hnone => exact absurd (List.find?_eq_none.1 hnone f hmem) (by simp)
  | ok g =>
    rw [h.eq_of_name (mem_of_fieldByName hfind) hmem (name_of_fieldByName hfind)]

/-- Looking up a header finds the written field that has it. -/
theorem fieldByHeader_eq_ok_iff (h : registry.WellFormed) {header : Header} {f : Field} :
    registry.fieldByHeader header = .ok f ↔
      f ∈ registry.fields ∧ f.serialized = true ∧ f.header = header := by
  refine ⟨fun hf => ⟨mem_of_fieldByHeader hf, serialized_of_fieldByHeader hf⟩, ?_⟩
  rintro ⟨hmem, hs, rfl⟩
  cases hfind : registry.fieldByHeader f.header with
  | error e =>
    unfold fieldByHeader at hfind
    split at hfind
    · cases hfind
    · next hnone => exact absurd (List.find?_eq_none.1 hnone f hmem) (by simp [hs])
  | ok g =>
    obtain ⟨hgs, hheader⟩ := serialized_of_fieldByHeader hfind
    rw [h.eq_of_header (mem_of_fieldByHeader hfind) hmem hgs hs hheader]

end WellFormed

end Registry

end FieldWire
