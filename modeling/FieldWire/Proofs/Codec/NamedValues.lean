import FieldWire.Proofs.Codec.Encoding
import FieldWire.Proofs.Codec.FieldRoundTrip
import FieldWire.Proofs.Plain.Writing
import FieldWire.Proofs.Value.Nesting

/-!
# Names that are encoded and decoded

A field with named values takes a name for its code, and shows the code by a name. From names to
codes a table is a function, but a schema may give several names one code, and it loads all the
same. Then the bytes are those of the code (`Codec.Carries`): they are the same for all of its
names, and decoding can give but one of them. Which one that is, is left open here.

So the names of a field survive exactly if no code that fits the field has two names
(**`Codec.carries_and_keepsNames_iff`**). `Codec.not_keepsNames_aliased` shows a schema that loads
and loses a name.

A field with named values is alone in its object here. What is read from the plain object is the
field with the word of a code (`Field.HasWord`), whether that is given by a name or as a number, and
the word is written and read back with its code (`Codec.carries_of_word`).
-/

namespace FieldWire

/-- The field is one of the registry, is written without a length, and holds words, which have the
names of the table. -/
structure Registry.Names (registry : Registry) (f : Field) (table : EnumTable) : Prop where
  /-- The field is one of the registry. -/
  mem : f ∈ registry.fields
  /-- The values of the field have the names of the table. -/
  table_eq : registry.enumTable? f.name = some table
  /-- The field is written. -/
  serialized : f.serialized = true
  /-- The field has no length. -/
  fixedLength : f.variableLength = false
  /-- The field holds words. -/
  word : f.kind = .uint8 ∨ f.kind = .uint16 ∨ f.kind = .uint32

/-- The plain object in which the field alone has a value. -/
def Field.plain (f : Field) (j : Json) : Json := .obj [(f.name, j)]

namespace Codec

/-- The bytes are those of the code, and of all of its names, one of which is shown for them. -/
structure Carries (codec : Codec) (f : Field) (table : EnumTable) (code : Int)
    (bytes : List UInt8) : Prop where
  /-- The code is encoded as the bytes. -/
  encode_code : codec.encode (f.plain (.int code)) false = .ok bytes
  /-- Every name of the code is encoded as the bytes. -/
  encode_name : ∀ name, table.codeOf? name = some code →
    codec.encode (f.plain (.str name)) false = .ok bytes
  /-- The bytes are decoded as a name of the code. -/
  decode_bytes : ∃ name, table.codeOf? name = some code ∧
    codec.decode bytes = .ok (f.plain (.str name))

/-- Every name of the field that is encoded is decoded again, and has the bytes of its code. -/
def KeepsNames (codec : Codec) (f : Field) (table : EnumTable) : Prop :=
  ∀ name bytes, codec.encode (f.plain (.str name)) false = .ok bytes →
    codec.decode bytes = .ok (f.plain (.str name)) ∧
      ∃ code, table.codeOf? name = some code ∧
        codec.encode (f.plain (.int code)) false = .ok bytes

end Codec

section

variable {registry : Registry} {f : Field} {table : EnumTable}

namespace Registry.Names

/-- Words are neither made of other values nor of bytes in any number. -/
theorem kind_ne (h : registry.Names f table) :
    f.kind ≠ .object ∧ f.kind ≠ .array ∧ f.kind ≠ .blob ∧ f.kind ≠ .vector256 := by
  rcases h.word with hkind | hkind | hkind <;> rw [hkind] <;> decide

/-- End markers have no named values. -/
theorem not_marker (h : registry.Names f table) : f.isMarker = false := by
  have htable := h.table_eq
  unfold enumTable? at htable
  split_ifs at htable with hname hname hname <;> rw [Field.isMarker, hname] <;> decide

/-- Words of the field are legible. -/
theorem legible (h : registry.Names f table) {v : Value} (hkind : v.kind = f.kind)
    (hleaf : v.IsLeaf) (hproper : v.IsProper) : Object.Obeys (.legible registry) [(f, v)] := by
  obtain ⟨hobject, harray, hblob, hvector⟩ := h.kind_ne
  have hfits : registry.Fits f v := ⟨h.mem, h.serialized, h.not_marker, hkind, hproper⟩
  have hmeasured : f.IsMeasured := fun hbytes => (hbytes.elim hblob hvector).elim
  have hcloses : registry.Closes f :=
    ⟨fun hkind => absurd hkind hobject, fun hkind => absurd hkind harray⟩
  exact Object.obeys_cons.2
    ⟨⟨hfits, hmeasured, hcloses⟩, Value.obeys_of_isLeaf hleaf, Object.obeys_nil⟩

end Registry.Names

/-! ### Words of codes -/

/-- A code is shown by a name exactly if a name has it. -/
theorem EnumTable.NamesDistinct.isSome_nameOf?_iff (h : table.NamesDistinct) {code : Int} :
    (table.nameOf? code).isSome = true ↔ ∃ name, table.codeOf? name = some code := by
  rw [Option.isSome_iff_exists]
  constructor
  · rintro ⟨name, hname⟩
    exact ⟨name, codeOf?_of_nameOf? h hname⟩
  · rintro ⟨name, hname⟩
    exact exists_nameOf?_of_codeOf? hname

/-- The word stands for the code in the field. -/
def Field.HasWord (f : Field) (code : Int) (v : Value) : Prop :=
  v.kind = f.kind ∧ ∃ n : Nat, Plain.wordCode? v = some n ∧ (n : Int) = code

/-- A word takes at most four bytes. -/
private theorem length_le_of_wordCode? {v : Value} {n : Nat} (h : Plain.wordCode? v = some n)
    {bytes : List UInt8} (hbytes : v.toBytes = .ok bytes) : bytes.length ≤ 4 := by
  cases v <;> cases h <;> rw [Value.toBytes, Value.write, Writer.run_append] at hbytes <;>
    cases hbytes <;> rw [BigEndian.length_ofNat] <;> decide

/-- What a plain value is read with where accounts are digits. -/
private abbrev hexContext (registry : Registry) : Context := ⟨registry, .hex⟩

private theorem lt_of_wordCode? {v : Value} {n : Nat} (h : Plain.wordCode? v = some n) :
    n < 4294967296 := by
  cases v <;> cases h
  case uint8 n =>
    have hn := n.toNat_lt
    omega
  case uint16 n =>
    have hn := n.toNat_lt
    omega
  case uint32 n => exact n.toNat_lt

/-- The number of a code is read as the word that stands for it. -/
private theorem ofJson_code_iff (h : registry.Names f table) {code : Int} {v : Value} :
    Value.ofJson (hexContext registry) f.kind (.int code) = .ok v ↔ f.HasWord code v := by
  constructor
  · intro hv
    obtain ⟨hobject, harray, -⟩ := h.kind_ne
    exact ⟨(Plain.kind_of_valueWith hv).1,
      Plain.wordCode?_of_leafOfJson? h.word (Plain.leafOfJson?_of_valueWith hobject harray hv)⟩
  · rintro ⟨hkind, n, hn, rfl⟩
    rw [← hkind]
    exact Value.ofJson_leaf (Value.leafOfJson?_wordCode? hn)

/-- The value that the field has for a plain value. -/
private abbrev valueOf (registry : Registry) (f : Field) (j : Json) : Except Error Value :=
  Plain.valueOfField (hexContext registry) (Value.ofJson (hexContext registry)) f j

private theorem valueOf_eq_ok_iff (h : registry.Names f table) {j : Json} {v : Value} :
    valueOf registry f j = .ok v ↔
      ∃ code, Plain.enumCode f table j = .ok (.int code) ∧ f.HasWord code v := by
  simp only [Plain.valueOfField, h.table_eq]
  cases hcode : Plain.enumCode f table j with
  | error e => simp
  | ok j' =>
    obtain ⟨code, rfl⟩ := Plain.exists_int_of_enumCode hcode
    dsimp only
    rw [Plain.withField_eq_ok_iff, ofJson_code_iff h]
    simp [Json.int]

/-- A name is read as the word of its code. -/
private theorem valueOf_name (h : registry.Names f table) {name : String} {v : Value} :
    valueOf registry f (.str name) = .ok v ↔
      ∃ code, table.codeOf? name = some code ∧ f.HasWord code v := by
  rw [valueOf_eq_ok_iff h]
  refine exists_congr fun code => and_congr_left fun _ => ?_
  simp only [Plain.enumCode]
  cases table.codeOf? name <;> simp [Json.int]

/-- A code that has a name is read as its word. -/
private theorem valueOf_code (hregistry : registry.WellFormed) (h : registry.Names f table)
    {code : Int} {v : Value} : valueOf registry f (.int code) = .ok v ↔
      (∃ name, table.codeOf? name = some code) ∧ f.HasWord code v := by
  rw [valueOf_eq_ok_iff h, ← (hregistry.namesDistinct _ _ h.table_eq).isSome_nameOf?_iff]
  constructor
  · rintro ⟨code', hcode, hword⟩
    simp only [Plain.enumCode, Json.int, Number.int64?] at hcode
    grind
  · rintro ⟨hname, hword⟩
    obtain ⟨-, n, hn, rfl⟩ := id hword
    have hlt := lt_of_wordCode? hn
    have hint : Text.isInt64 n = true := by
      simp only [Text.isInt64, Text.maxInt64]
      grind
    refine ⟨n, ?_, hword⟩
    simp only [Plain.enumCode, Json.int, Number.int64?, hint, if_true, Option.filter_some, hname]

/-! ### Encoding -/

namespace Codec

variable {bytes : List UInt8}

/-- The field alone is encoded with the value that it has for the plain value. -/
private theorem encode_plain_eq_ok_iff (hregistry : registry.WellFormed)
    (h : registry.Names f table) {j : Json} (hnull : j.isNull = false) :
    (ofRegistry registry).encode (f.plain j) false = .ok bytes ↔
      ∃ v, valueOf registry f j = .ok v ∧ Object.toBytes [(f, v)] = .ok bytes := by
  have hname : registry.fieldByName f.name = .ok f :=
    hregistry.fieldByName_eq_ok_iff.2 ⟨h.mem, rfl⟩
  have hobject : Object.ofJson (hexContext registry) false (f.plain j) =
      (valueOf registry f j).map fun v => [(f, v)] := by
    rw [Object.ofJson_eq, Plain.objectWith]
    simp only [Field.plain, Json.obj?, Plain.expand_hex, Plain.collect, Plain.fieldOfMember, hnull,
      hname, h.not_marker, h.serialized]
    cases hvalue : valueOf registry f j <;> rw [valueOf] at hvalue <;> rw [hvalue] <;> rfl
  have hencode : (ofRegistry registry).encode (f.plain j) false =
      Object.ofJson (hexContext registry) false (f.plain j) >>= Object.toBytes :=
    encode_eq_bind _ _ _
  rw [hencode, hobject, bind_eq_ok_iff]
  simp [map_eq_ok_iff]

/-! ### Decoding -/

/-- A word is read back where it was written, and is shown by a name of its code. -/
private theorem decode_of_word (hregistry : registry.WellFormed) (h : registry.Names f table)
    {code : Int} {v : Value} (hword : f.HasWord code v)
    (hbytes : Object.toBytes [(f, v)] = .ok bytes) {name : String}
    (hname : table.nameOf? code = some name) :
    (ofRegistry registry).decode bytes = .ok (f.plain (.str name)) := by
  obtain ⟨hkind, n, hn, rfl⟩ := hword
  have hleaf : v.IsLeaf := Value.isLeaf_of_wordCode? hn
  have hread : Object.ofBytes registry defaultMaxDepth bytes = .ok [(f, v)] := by
    have hproper : v.IsProper := by cases v <;> trivial
    refine Object.ofBytes_of_legible hregistry (h.legible hkind hleaf hproper) ?_ hbytes
    rw [Object.nesting, Value.nestingFields, Value.nesting_of_isLeaf hleaf]
    exact Nat.zero_le _
  have hsize : ¬defaultMaxInput < bytes.length := by
    obtain ⟨inner, framed, hinner, hframed, rfl⟩ := Object.toBytes_singleton.1 hbytes
    rw [f.frame_of_fixedLength h.fixedLength] at hframed
    cases hframed
    have hheader := f.header.length_bytes_le
    have hinner := length_le_of_wordCode? hn hinner
    rw [Value.closing_of_not_object h.kind_ne.1, List.append_nil, List.length_append,
      defaultMaxInput]
    omega
  have hshown : Object.toJson (hexContext registry) [(f, v)] = .ok (f.plain (.str name)) := by
    simp only [Object.toJson, Value.fieldsToJson, h.table_eq, Plain.enumName, hn, hname]
    rfl
  have hdecode : (ofRegistry registry).decode bytes =
      (Object.ofBytes registry defaultMaxDepth bytes >>= Object.toJson (hexContext registry)) := by
    rw [decode, ofRegistry, if_neg hsize]
    rfl
  rw [hdecode, hread]
  exact hshown

/-! ### Names -/

/-- A code that is written carries all of its names, if it has one. -/
theorem carries_of_word (hregistry : registry.WellFormed) (h : registry.Names f table)
    {code : Int} {v : Value} (hword : f.HasWord code v)
    (hbytes : Object.toBytes [(f, v)] = .ok bytes) {name : String}
    (hname : table.codeOf? name = some code) :
    (ofRegistry registry).Carries f table code bytes where
  encode_code := (encode_plain_eq_ok_iff hregistry h rfl).2
    ⟨v, (valueOf_code hregistry h).2 ⟨⟨name, hname⟩, hword⟩, hbytes⟩
  encode_name other hother := (encode_plain_eq_ok_iff hregistry h rfl).2
    ⟨v, (valueOf_name h).2 ⟨code, hother, hword⟩, hbytes⟩
  decode_bytes := by
    obtain ⟨shown, hshown⟩ := EnumTable.exists_nameOf?_of_codeOf? hname
    exact ⟨shown,
      EnumTable.codeOf?_of_nameOf? (hregistry.namesDistinct _ _ h.table_eq) hshown,
      decode_of_word hregistry h hword hbytes hshown⟩

/-- A name that is encoded has a code, which carries it. -/
theorem carries_of_encode_name (hregistry : registry.WellFormed) (h : registry.Names f table)
    {name : String} (hname : (ofRegistry registry).encode (f.plain (.str name)) false = .ok bytes) :
    ∃ code, table.codeOf? name = some code ∧ (ofRegistry registry).Carries f table code bytes := by
  obtain ⟨v, hv, hbytes⟩ := (encode_plain_eq_ok_iff hregistry h rfl).1 hname
  obtain ⟨code, hcode, hword⟩ := (valueOf_name h).1 hv
  exact ⟨code, hcode, carries_of_word hregistry h hword hbytes hcode⟩

/-- A code that is encoded carries all of its names. -/
theorem carries_of_encode_code (hregistry : registry.WellFormed) (h : registry.Names f table)
    {code : Int} (hcode : (ofRegistry registry).encode (f.plain (.int code)) false = .ok bytes) :
    (ofRegistry registry).Carries f table code bytes := by
  obtain ⟨v, hv, hbytes⟩ := (encode_plain_eq_ok_iff hregistry h rfl).1 hcode
  obtain ⟨⟨name, hname⟩, hword⟩ := (valueOf_code hregistry h).1 hv
  exact carries_of_word hregistry h hword hbytes hname

/-- **The names of a field survive exactly if no code has two.** With an accepted registry, a name
or a code that is encoded becomes the bytes of its code, which are the same for all names of the
code and are decoded as one of them. So every name that is encoded is decoded again exactly if no
code that is encoded has two names. -/
theorem carries_and_keepsNames_iff (hregistry : registry.Accepted) (h : registry.Names f table) :
    (∀ name bytes, (ofRegistry registry).encode (f.plain (.str name)) false = .ok bytes →
      ∃ code, table.codeOf? name = some code ∧
        (ofRegistry registry).Carries f table code bytes) ∧
    ((ofRegistry registry).KeepsNames f table ↔
      ∀ code bytes, (ofRegistry registry).encode (f.plain (.int code)) false = .ok bytes →
        ∀ name other, table.codeOf? name = some code → table.codeOf? other = some code →
          name = other) := by
  have hcarries : ∀ name bytes,
      (ofRegistry registry).encode (f.plain (.str name)) false = .ok bytes →
        ∃ code, table.codeOf? name = some code ∧
          (ofRegistry registry).Carries f table code bytes :=
    fun name bytes hname => carries_of_encode_name hregistry.wellFormed h hname
  refine ⟨hcarries, fun hkeeps code bytes hcode name other hname hother => ?_,
    fun hunique name bytes hname => ?_⟩
  · -- both names have the bytes of the code, which are decoded in one way
    have hcode := carries_of_encode_code hregistry.wellFormed h hcode
    have hdecoded := (hkeeps name bytes (hcode.encode_name name hname)).1
    rw [(hkeeps other bytes (hcode.encode_name other hother)).1] at hdecoded
    simpa [Field.plain] using hdecoded.symm
  · obtain ⟨code, hcode, hcarries⟩ := hcarries name bytes hname
    obtain ⟨shown, hshown, hdecoded⟩ := hcarries.decode_bytes
    rw [hunique code bytes hcarries.encode_code name shown hcode hshown]
    exact ⟨hdecoded, code, hshown, hcarries.encode_code⟩

end Codec

end

/-! ### Two names for one code -/

/-- A schema in which two transaction types have one code. -/
def aliasedSchema : Schema where
  types := [("UInt16", 1), ("STObject", 14), ("STArray", 15)]
  fields :=
    [⟨objectEndName, 1, false, true, true, "STObject"⟩,
     ⟨arrayEndName, 1, false, true, true, "STArray"⟩,
     ⟨"LedgerEntryType", 1, false, true, true, "UInt16"⟩,
     ⟨"TransactionType", 2, false, true, true, "UInt16"⟩]
  transactionTypes := [("Payment", 0), ("Invoke", 5), ("Call", 5)]
  transactionResults := []
  ledgerEntryTypes := [("AccountRoot", 97), ("Offer", 111)]

namespace Aliased

/-- The types of ledger entries. -/
def entryType : Field := ⟨"LedgerEntryType", .uint16, ⟨1, 1⟩, false, true, true⟩

/-- The types of transactions. -/
def transactionType : Field := ⟨"TransactionType", .uint16, ⟨1, 2⟩, false, true, true⟩

/-- The registry of the schema. -/
def registry : Registry where
  fields :=
    [⟨objectEndName, .object, ⟨14, 1⟩, false, true, true⟩,
     ⟨arrayEndName, .array, ⟨15, 1⟩, false, true, true⟩, entryType, transactionType]
  typeCodes := [("UInt16", 1), ("STObject", 14), ("STArray", 15)]
  transactionTypes := ⟨[("Payment", 0), ("Invoke", 5), ("Call", 5)]⟩
  transactionResults := ⟨[]⟩
  ledgerEntryTypes := ⟨[("AccountRoot", 97), ("Offer", 111)]⟩

theorem accepted : registry.Accepted :=
  ⟨aliasedSchema, ⟨by decide, List.nodup_nil, by decide⟩, rfl⟩

theorem names_entryType : registry.Names entryType registry.ledgerEntryTypes :=
  ⟨by decide, rfl, rfl, rfl, .inr (.inl rfl)⟩

/-- Different entry types have different codes. -/
theorem eq_of_codeOf? {code : Int} {name other : String}
    (hname : registry.ledgerEntryTypes.codeOf? name = some code)
    (hother : registry.ledgerEntryTypes.codeOf? other = some code) : name = other := by
  have hmem := Members.mem_of_get?_eq_some hname
  have hmem' := Members.mem_of_get?_eq_some hother
  simp only [registry, List.mem_cons, Prod.mk.injEq, List.not_mem_nil, or_false] at hmem hmem'
  grind

end Aliased

/-- The types of ledger entries are decoded as they were encoded, and one of them is encoded. -/
theorem Codec.keepsNames_entryType :
    (ofRegistry Aliased.registry).encode (Aliased.entryType.plain (.str "Offer")) false =
        .ok [0x11, 0, 111] ∧
      (ofRegistry Aliased.registry).KeepsNames Aliased.entryType
        Aliased.registry.ledgerEntryTypes :=
  ⟨eq_ok_of_toOption (by decide +kernel),
    (carries_and_keepsNames_iff Aliased.accepted Aliased.names_entryType).2.2
      fun _ _ _ _ _ hname hother => Aliased.eq_of_codeOf? hname hother⟩

/-- A schema with two names for one code loads, and not every name that is encoded is decoded
again. -/
theorem Codec.not_keepsNames_aliased :
    Aliased.registry.Accepted ∧
      Aliased.registry.Names Aliased.transactionType Aliased.registry.transactionTypes ∧
      ¬(ofRegistry Aliased.registry).KeepsNames Aliased.transactionType
        Aliased.registry.transactionTypes := by
  refine ⟨Aliased.accepted, ⟨by decide, rfl, rfl, rfl, .inr (.inl rfl)⟩, fun h => ?_⟩
  have hencode : (ofRegistry Aliased.registry).encode
      (Aliased.transactionType.plain (.str "Call")) false = .ok [0x12, 0, 5] :=
    eq_ok_of_toOption (by decide +kernel)
  have hdecode : ((ofRegistry Aliased.registry).decode [0x12, 0, 5]).toOption =
      some (Aliased.transactionType.plain (.str "Invoke")) := by decide +kernel
  rw [(h _ _ hencode).1] at hdecode
  revert hdecode
  decide

end FieldWire
