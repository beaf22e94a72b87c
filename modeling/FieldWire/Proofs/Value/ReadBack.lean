import FieldWire.Proofs.Registry.Regular
import FieldWire.Proofs.Value.Shape

/-!
# Written values read back

What is written for a field is read as the value of that field, whatever follows
(`Value.reads_readKind`), and what is written for an object is read as that object
(`Object.ofBytes_of_toBytes`), if the fields of the value are *legible* (`Rule.legible`) and the
limit allows its levels. Besides that fields fit, this asks for two things. Bytes and hashes in any
number stand behind their length (`Rule.measured`). And the ends of nested values are found
(`Rule.closed`): objects stand behind no length, end markers are written, and elements are wrapped
in fields that are written and are no end markers. In a regular registry all of this is so, but for
the elements that are wrapped in the field of the array end marker (`Registry.Regular.legible`).

The readers recurse on a number that must exceed the bytes that are left. The bound is kept through
the recursion because every field and every element takes a byte for its header.
-/

namespace FieldWire

/-! ### Legible values -/

/-- Bytes and hashes in any number stand behind their length. -/
def Field.IsMeasured (f : Field) : Prop :=
  f.kind = .blob ∨ f.kind = .vector256 → f.variableLength = true

/-- The field of an end marker is written. -/
def Registry.WritesMarker (registry : Registry) (name : String) : Prop :=
  ∀ f ∈ registry.fields, f.name = name → f.serialized = true

/-- The end of a nested value in the field is found. -/
structure Registry.Closes (registry : Registry) (f : Field) : Prop where
  /-- An object stands behind no length, and its end marker is written. -/
  object : f.kind = .object → f.variableLength = false ∧ registry.WritesMarker objectEndName
  /-- The end marker of an array is written. -/
  array : f.kind = .array → registry.WritesMarker arrayEndName

/-- The field wraps an element so that its beginning and its end are found. -/
structure Registry.Frames (registry : Registry) (f : Field) : Prop where
  /-- The field is written. -/
  serialized : f.serialized = true
  /-- The field is not that of the array end marker. -/
  name_ne : f.name ≠ arrayEndName
  /-- The end marker of objects is written. -/
  objectEnd : registry.WritesMarker objectEndName

namespace Rule

/-- Bytes and hashes in any number stand behind their length. -/
def measured : Rule where
  entry f _ _ := f.IsMeasured
  wrapper _ := True

/-- The ends of nested values are found. -/
def closed (registry : Registry) : Rule where
  entry f _ _ := registry.Closes f
  wrapper := registry.Frames

theorem isLocal_measured : measured.IsLocal := fun _ _ _ _ h => h

/-- Everything that reading back takes. -/
def legible (registry : Registry) : Rule := (fits registry).and (measured.and (closed registry))

end Rule

namespace Registry.Regular

variable {registry : Registry}

theorem isMeasured (h : registry.Regular) {f : Field} (hf : f ∈ registry.fields) : f.IsMeasured :=
  h.bytes_variableLength f hf

theorem writesMarker (h : registry.Regular) {name : String}
    (hname : name = objectEndName ∨ name = arrayEndName) : registry.WritesMarker name := by
  rintro f hf rfl
  exact h.marker_serialized f hf (by simpa [Field.isMarker] using hname)

theorem closes (h : registry.Regular) {f : Field} (hf : f ∈ registry.fields) :
    registry.Closes f :=
  ⟨fun hkind => ⟨h.object_fixedLength f hf hkind, h.writesMarker (.inl rfl)⟩,
    fun _ => h.writesMarker (.inr rfl)⟩

theorem frames (h : registry.Regular) {f : Field} (hf : registry.Wraps f)
    (hname : f.name ≠ arrayEndName) : registry.Frames f :=
  ⟨h.object_serialized f hf.mem hf.kind, hname, h.writesMarker (.inl rfl)⟩

/-- In a regular registry only elements in the field of the array end marker are illegible. -/
theorem legible (h : registry.Regular) {fields : Object}
    (hfits : Object.Obeys (.fits registry) fields) (hunmarked : Object.Obeys .unmarked fields) :
    Object.Obeys (.legible registry) fields := by
  refine Value.fieldsObey_imp (fun f v _ hf => ?_) (fun f hf => ?_) fields
    (Value.fieldsObey_and fields hfits hunmarked)
  · exact ⟨hf.1, h.isMeasured hf.1.mem, h.closes hf.1.mem⟩
  · exact ⟨hf.1, trivial, h.frames hf.1 hf.2⟩

end Registry.Regular

namespace Value

variable {depth : Nat}

/-! ### Leaves -/

private theorem reads_readWord {kind : Kind} {width n : Nat} {length : Option Nat}
    (hlength : ∀ m, length = some m → m = width) (hn : n < Nat.pow 256 width) :
    (readWord kind width length).Reads depth (BigEndian.ofNat width n) n :=
  (Reader.Reads.checkWidth hlength).nil_bind (.number hn)

private theorem reads_readOctets {kind : Kind} {width : Nat} {length : Option Nat}
    (hlength : ∀ m, length = some m → m = width) (bytes : Octets width) :
    (readOctets kind width length).Reads depth bytes.toList bytes :=
  (Reader.Reads.checkWidth hlength).nil_bind (.octets bytes)

private theorem reads_readHashes (hashes taken : List (Octets 32)) :
    (readHashes hashes.length taken).Reads depth (hashes.flatMap Octets.toList)
      (taken.reverse ++ hashes) := by
  induction hashes generalizing taken with
  | nil =>
    rw [List.append_nil]
    exact .pure _
  | cons hash hashes ih =>
    have hrest := ih (hash :: taken)
    rw [List.reverse_cons, List.append_assoc] at hrest
    exact (Reader.Reads.octets hash).bind hrest

private theorem length_flatMap_toList (hashes : List (Octets 32)) :
    (hashes.flatMap Octets.toList).length = 32 * hashes.length := by
  induction hashes with
  | nil => rfl
  | cons hash hashes ih =>
    rw [List.flatMap_cons, List.length_append, hash.length_toList, ih, List.length_cons]
    omega

private theorem reads_readVector (hashes : List (Octets 32)) :
    (readVector (some (hashes.flatMap Octets.toList).length)).Reads depth
      (hashes.flatMap Octets.toList) hashes := by
  have hlength := length_flatMap_toList hashes
  have hcount : (hashes.flatMap Octets.toList).length / 32 = hashes.length := by omega
  rw [readVector, if_pos (by omega), hcount]
  exact reads_readHashes hashes []

/-- The length that a reader is given for a value: that of its bytes, or none where the value needs
none. -/
def IsLengthOf (length : Option Nat) (v : Value) (bytes : List UInt8) : Prop :=
  length = some bytes.length ∨ (length = none ∧ v.kind ≠ .blob ∧ v.kind ≠ .vector256)

theorem IsLengthOf.eq {length : Option Nat} {v : Value} {bytes : List UInt8}
    (h : IsLengthOf length v bytes) : ∀ n, length = some n → n = bytes.length := by
  rintro n rfl
  obtain h | ⟨h, -⟩ := h
  · exact Option.some.inj h
  · cases h

/-- The bytes of a proper leaf read back. -/
theorem reads_leaf {v : Value} (hleaf : v.IsLeaf) (hproper : v.IsProper) {bytes : List UInt8}
    (hbytes : v.toBytes = .ok bytes) {length : Option Nat} (hlength : IsLengthOf length v bytes)
    (objects : Reader Object) (arrays : Reader (List Element)) :
    (readWith objects arrays v.kind length).Reads depth bytes v := by
  have heq := hlength.eq
  cases v
  case object => exact absurd rfl hleaf.1
  case array => exact absurd rfl hleaf.2
  case pathSet paths =>
    rw [toBytes, write, Writer.run_appendOf] at hbytes
    exact (PathSet.reads_read hproper hbytes).bind_nil (.pure _)
  all_goals
    rw [toBytes, write, Writer.run_append] at hbytes
    cases hbytes
  case uint8 n =>
    rw [BigEndian.length_ofNat] at heq
    refine (reads_readWord heq n.toNat_lt).bind_nil ?_
    rw [UInt8.ofNat_toNat]
    exact .pure _
  case uint16 n =>
    rw [BigEndian.length_ofNat] at heq
    refine (reads_readWord heq n.toNat_lt).bind_nil ?_
    rw [UInt16.ofNat_toNat]
    exact .pure _
  case uint32 n =>
    rw [BigEndian.length_ofNat] at heq
    refine (reads_readWord heq n.toNat_lt).bind_nil ?_
    rw [UInt32.ofNat_toNat]
    exact .pure _
  case uint64 n =>
    rw [BigEndian.length_ofNat] at heq
    refine (reads_readWord heq n.toNat_lt).bind_nil ?_
    rw [UInt64.ofNat_toNat]
    exact .pure _
  case hash128 hash =>
    rw [hash.length_toList] at heq
    exact (reads_readOctets heq hash).bind_nil (.pure _)
  case hash160 hash =>
    rw [hash.length_toList] at heq
    exact (reads_readOctets heq hash).bind_nil (.pure _)
  case hash256 hash =>
    rw [hash.length_toList] at heq
    exact (reads_readOctets heq hash).bind_nil (.pure _)
  case account id =>
    rw [id.length_toList] at heq
    exact (reads_readOctets heq id).bind_nil (.pure _)
  case blob =>
    obtain rfl | ⟨-, hblob, -⟩ := hlength
    · exact (Reader.Reads.take _).bind_nil (.pure _)
    · exact absurd rfl hblob
  case amount a => exact (Amount.reads_read hproper heq).bind_nil (.pure _)
  case currency c =>
    rw [c.bytes.length_toList] at heq
    exact (Currency.reads_read hproper heq).bind_nil (.pure _)
  case issue i => exact (Issue.reads_read hproper heq).bind_nil (.pure _)
  case vector256 hashes =>
    obtain rfl | ⟨-, -, hvector⟩ := hlength
    · exact (reads_readVector hashes).bind_nil (.pure _)
    · exact absurd rfl hvector

/-! ### Fields -/

/-- A value that reads back does so behind its length. -/
theorem reads_readOfFieldWith_of_length {value : Kind → Option Nat → Reader Value} {f : Field}
    {v : Value} {head inner : List UInt8} (hlength : f.variableLength = true)
    (hhead : LengthPrefix.read.Reads depth head inner.length)
    (hvalue : (value f.kind (some inner.length)).Reads depth inner v) :
    (readOfFieldWith value f).Reads depth (head ++ inner) v := by
  rw [readOfFieldWith, if_pos hlength]
  refine hhead.bind (.need_bind (Nat.le_refl _) ?_)
  intro rest position
  have hget : ∀ c : Cursor, (get : Reader Cursor) c = .ok c c := fun _ => rfl
  rw [Reader.bind_of_ok (hget _), Reader.bind_of_ok (hvalue _ _), Reader.bind_of_ok (hget _)]
  simp only [Nat.add_sub_cancel_left, if_true]
  rfl

/-- A value that reads back does so in its frame. -/
theorem reads_readOfFieldWith {value : Kind → Option Nat → Reader Value} {f : Field} {v : Value}
    {inner framed : List UInt8} (hframed : f.frame inner = .ok framed)
    (hvalue : (value f.kind (if f.variableLength then some inner.length else none)).Reads depth
      inner v) : (readOfFieldWith value f).Reads depth framed v := by
  cases hlength : f.variableLength with
  | false =>
    rw [f.frame_of_fixedLength hlength] at hframed
    cases hframed
    rw [readOfFieldWith, hlength, if_neg Bool.false_ne_true]
    rwa [hlength, if_neg Bool.false_ne_true] at hvalue
  | true =>
    rw [f.frame_of_variableLength hlength, Writer.prefixed, map_eq_ok_iff] at hframed
    obtain ⟨head, hhead, rfl⟩ := hframed
    rw [hlength, if_pos rfl] at hvalue
    exact reads_readOfFieldWith_of_length hlength (LengthPrefix.reads_read hhead) hvalue

theorem closing_of_object {f : Field} (h : f.kind = .object) :
    f.closing = [objectEnd] := by
  rw [Field.closing, Field.isObject, h]
  rfl

theorem closing_of_not_object {f : Field} (h : f.kind ≠ .object) : f.closing = [] := by
  rw [Field.closing, Field.isObject, decide_eq_false h, if_neg Bool.false_ne_true]

/-- A value that reads back does so in its frame, with the end marker of an object that stands
behind no length. -/
theorem reads_readOfFieldWith_closing {value : Kind → Option Nat → Reader Value} {f : Field}
    {v : Value} {inner framed : List UInt8} (hframed : f.frame inner = .ok framed)
    (hobject : f.kind = .object → f.variableLength = false)
    (hvalue : (value f.kind (if f.variableLength then some inner.length else none)).Reads depth
      (inner ++ f.closing) v) : (readOfFieldWith value f).Reads depth (framed ++ f.closing) v := by
  by_cases hkind : f.kind = .object
  · have hfixed := hobject hkind
    rw [f.frame_of_fixedLength hfixed] at hframed
    cases hframed
    rw [hfixed, if_neg Bool.false_ne_true] at hvalue
    rwa [readOfFieldWith, hfixed, if_neg Bool.false_ne_true]
  · rw [closing_of_not_object hkind, List.append_nil] at hvalue ⊢
    exact reads_readOfFieldWith hframed hvalue

variable {registry : Registry} {limit : Nat}

/-- Takes a value of a kind, where objects and arrays may use up `fuel`. -/
def readKind (registry : Registry) (limit fuel : Nat) : Kind → Option Nat → Reader Value :=
  readWith (Reader.nested limit (readFields registry limit fuel true []))
    (Reader.nested limit (readElements registry limit fuel []))

/-- Takes the value of a field within its length, where objects and arrays may use up `fuel`. -/
def readInField (registry : Registry) (limit fuel : Nat) (f : Field) : Reader Value :=
  readOfFieldWith (readKind registry limit fuel) f

/-- Where bytes are left, or are needed, the next field or the end marker is read. -/
theorem readFields_succ {fuel : Nat} {inner : Bool} {taken : Object} {c : Cursor}
    (h : inner = true ∨ c.rest ≠ []) : readFields registry limit (fuel + 1) inner taken c =
      (do
        let f ← registry.readField
        if f.name = objectEndName then return taken.reverse
        else if f.name = arrayEndName then throw (Error.invalidHeader .strayArrayEnd)
        else
          let v ← readInField registry limit fuel f
          readFields registry limit fuel inner ((f, v) :: taken)) c := by
  have hget : (get : Reader Cursor) c = .ok c c := rfl
  have hmore : (!inner && c.rest.isEmpty) = false := by
    obtain rfl | h := h
    · rfl
    · rw [List.isEmpty_eq_false_iff.2 h, Bool.and_false]
  rw [readFields, Reader.bind_of_ok hget, hmore, if_neg Bool.false_ne_true]
  rfl

/-- Where no bytes are left, an object that needs no end marker ends. -/
theorem readFields_end {fuel position depth : Nat} {taken : Object} :
    readFields registry limit (fuel + 1) false taken ⟨[], position, depth⟩ =
      .ok taken.reverse ⟨[], position, depth⟩ := by
  have hget : (get : Reader Cursor) ⟨[], position, depth⟩ =
      .ok ⟨[], position, depth⟩ ⟨[], position, depth⟩ := rfl
  rw [readFields, Reader.bind_of_ok hget]
  rfl

/-- Reading fields, as far as `bytes` go, puts them behind those already taken. -/
def ReadsFields (registry : Registry) (limit fuel depth : Nat) (bytes : List UInt8)
    (fields : Object) : Prop :=
  ∃ n, ∀ inner taken rest position,
    readFields registry limit fuel inner taken ⟨bytes ++ rest, position, depth⟩ =
      readFields registry limit (n + 1) inner (fields.reverse ++ taken)
        ⟨rest, position + bytes.length, depth⟩

end Value

namespace Registry.WellFormed

variable {registry : Registry} {limit fuel depth : Nat}

/-- The end marker of objects is read as the field of its name, if that is written. -/
theorem reads_objectEnd (h : registry.WellFormed) (hwritten : registry.WritesMarker objectEndName) :
    ∃ f, f.name = objectEndName ∧ registry.readField.Reads depth [FieldWire.objectEnd] f := by
  obtain ⟨f, hf, hname, hbytes⟩ := h.objectEnd
  exact ⟨f, hname, hbytes ▸ h.reads_readField hf (hwritten f hf hname)⟩

/-- The end marker of arrays is read as the field of its name, if that is written. -/
theorem reads_arrayEnd (h : registry.WellFormed) (hwritten : registry.WritesMarker arrayEndName) :
    ∃ f, f.name = arrayEndName ∧ registry.readField.Reads depth [FieldWire.arrayEnd] f := by
  obtain ⟨f, hf, hname, hbytes⟩ := h.arrayEnd
  exact ⟨f, hname, hbytes ▸ h.reads_readField hf (hwritten f hf hname)⟩

/-- Where the end of an object comes next, the fields taken so far make the object. -/
theorem reads_readFields_end (h : registry.WellFormed)
    (hwritten : registry.WritesMarker objectEndName) (inner : Bool) (taken : Object) :
    (Value.readFields registry limit (fuel + 1) inner taken).Reads depth [FieldWire.objectEnd]
      taken.reverse := by
  obtain ⟨marker, hname, hmarker⟩ := @reads_objectEnd _ depth h hwritten
  intro rest position
  rw [Value.readFields_succ (.inr (List.cons_ne_nil _ _)), Reader.bind_of_ok (hmarker _ _),
    if_pos hname]
  rfl

/-- Where the end of an array comes next, the elements taken so far make the array. -/
theorem reads_readElements_end (h : registry.WellFormed)
    (hwritten : registry.WritesMarker arrayEndName) (taken : List Element) :
    (Value.readElements registry limit (fuel + 1) taken).Reads depth [FieldWire.arrayEnd]
      taken.reverse := by
  obtain ⟨marker, hname, hmarker⟩ := @reads_arrayEnd _ depth h hwritten
  rw [Value.readElements]
  refine hmarker.bind_nil ?_
  rw [if_pos hname]
  exact .pure _

end Registry.WellFormed

namespace Value

variable {depth limit : Nat} {registry : Registry}

/-- Fields that are read up to the end marker make an object. -/
private theorem ReadsFields.reads_nested (hregistry : registry.WellFormed)
    (hwritten : registry.WritesMarker objectEndName) {fuel : Nat} {bytes : List UInt8}
    {fields : Object} (h : ReadsFields registry limit fuel (depth + 1) bytes fields)
    (hdepth : depth < limit) :
    (Reader.nested limit (readFields registry limit fuel true [])).Reads depth
      (bytes ++ [objectEnd]) fields := by
  obtain ⟨n, hn⟩ := h
  refine .nested hdepth fun rest position => ?_
  rw [List.append_assoc, hn, hregistry.reads_readFields_end hwritten, List.append_nil,
    List.reverse_reverse, List.length_append, Nat.add_assoc]

/-- Fields that are read up to the end marker make a value, whatever length is given for it. -/
theorem ReadsFields.reads_readKind (hregistry : registry.WellFormed)
    (hwritten : registry.WritesMarker objectEndName) {fuel : Nat} {bytes : List UInt8}
    {fields : Object} (h : ReadsFields registry limit fuel (depth + 1) bytes fields)
    (hdepth : depth < limit) (length : Option Nat) :
    (readKind registry limit fuel .object length).Reads depth (bytes ++ [objectEnd])
      (.object fields) :=
  (h.reads_nested hregistry hwritten hdepth).bind_nil (.pure _)

/-- A leaf that fits its field is read as what it is, within its length where the field has one. -/
theorem reads_readKind_leaf {v : Value} (hleaf : v.IsLeaf) {f : Field} (hfits : registry.Fits f v)
    (hmeasured : f.IsMeasured) {inner : List UInt8} (hinner : v.toBytes = .ok inner) (fuel : Nat) :
    (readKind registry limit fuel f.kind
      (if f.variableLength then some inner.length else none)).Reads depth (inner ++ f.closing) v := by
  rw [closing_of_not_object (hfits.kind ▸ hleaf.1), List.append_nil, ← hfits.kind]
  refine reads_leaf hleaf hfits.proper hinner ?_ _ _
  cases hlength : f.variableLength with
  | true => exact .inl (if_pos rfl)
  | false =>
    refine .inr ⟨if_neg Bool.false_ne_true, fun hkind => ?_, fun hkind => ?_⟩ <;>
      rw [hfits.kind] at hkind
    · rw [hmeasured (.inl hkind)] at hlength
      cases hlength
    · rw [hmeasured (.inr hkind)] at hlength
      cases hlength

/-- A leaf that fits its field reads back in it. -/
theorem reads_readInField_leaf {v : Value} (hleaf : v.IsLeaf) {f : Field}
    (hfits : registry.Fits f v) (hmeasured : f.IsMeasured) {inner framed : List UInt8}
    (hinner : v.toBytes = .ok inner) (hframed : f.frame inner = .ok framed) (fuel : Nat) :
    (readInField registry limit fuel f).Reads depth (framed ++ f.closing) v :=
  reads_readOfFieldWith_closing hframed (fun hkind => absurd (hfits.kind.trans hkind) hleaf.1)
    (reads_readKind_leaf hleaf hfits hmeasured hinner fuel)

/-! ### Nested values -/

mutual
/-- A legible value is read as what it is, within its length where its field has one. -/
theorem reads_readKind (hregistry : registry.WellFormed) : (v : Value) → {f : Field} →
    {depth fuel : Nat} → {inner : List UInt8} → (Rule.legible registry).entry f v [] →
    v.Obeys (.legible registry) → v.nesting + depth ≤ limit → v.toBytes = .ok inner →
    inner.length + f.closing.length ≤ fuel →
      (readKind registry limit fuel f.kind
        (if f.variableLength then some inner.length else none)).Reads depth (inner ++ f.closing) v
  | .object fields, f, depth, fuel, inner, ⟨hfits, _, hcloses⟩, hv, hdepth, hinner, hfuel => by
    have hkind : f.kind = .object := hfits.kind.symm
    rw [toBytes_object] at hinner
    rw [closing_of_object hkind] at hfuel ⊢
    rw [nesting] at hdepth
    have hfields : ReadsFields registry limit fuel (depth + 1) inner fields :=
      readsFields hregistry fields (obeys_object.1 hv) (by omega) hinner hfuel
    rw [hkind]
    exact hfields.reads_readKind hregistry (hcloses.object hkind).2 (by omega) _
  | .array elements, f, depth, fuel, inner, ⟨hfits, _, hcloses⟩, hv, hdepth, hinner, hfuel => by
    have hkind : f.kind = .array := hfits.kind.symm
    rw [closing_of_not_object (hkind ▸ nofun), List.append_nil]
    rw [nesting] at hdepth
    have helements : (readElements registry limit fuel []).Reads (depth + 1) inner elements :=
      reads_readElements hregistry (hcloses.array hkind) elements [] (obeys_array.1 hv) (by omega)
        hinner (by omega)
    rw [readKind, hkind]
    exact (Reader.Reads.nested (by omega) helements).bind_nil (.pure _)
  | .uint8 _, _, _, fuel, _, ⟨hfits, hmeasured, _⟩, _, _, hinner, _
  | .uint16 _, _, _, fuel, _, ⟨hfits, hmeasured, _⟩, _, _, hinner, _
  | .uint32 _, _, _, fuel, _, ⟨hfits, hmeasured, _⟩, _, _, hinner, _
  | .uint64 _, _, _, fuel, _, ⟨hfits, hmeasured, _⟩, _, _, hinner, _
  | .hash128 _, _, _, fuel, _, ⟨hfits, hmeasured, _⟩, _, _, hinner, _
  | .hash160 _, _, _, fuel, _, ⟨hfits, hmeasured, _⟩, _, _, hinner, _
  | .hash256 _, _, _, fuel, _, ⟨hfits, hmeasured, _⟩, _, _, hinner, _
  | .account _, _, _, fuel, _, ⟨hfits, hmeasured, _⟩, _, _, hinner, _
  | .blob _, _, _, fuel, _, ⟨hfits, hmeasured, _⟩, _, _, hinner, _
  | .amount _, _, _, fuel, _, ⟨hfits, hmeasured, _⟩, _, _, hinner, _
  | .currency _, _, _, fuel, _, ⟨hfits, hmeasured, _⟩, _, _, hinner, _
  | .issue _, _, _, fuel, _, ⟨hfits, hmeasured, _⟩, _, _, hinner, _
  | .vector256 _, _, _, fuel, _, ⟨hfits, hmeasured, _⟩, _, _, hinner, _
  | .pathSet _, _, _, fuel, _, ⟨hfits, hmeasured, _⟩, _, _, hinner, _ =>
    reads_readKind_leaf (by exact ⟨nofun, nofun⟩) hfits hmeasured hinner fuel

/-- Legible fields read back one after another. -/
theorem readsFields (hregistry : registry.WellFormed) :
    (fields : List (Field × Value)) → {depth fuel : Nat} → {bytes : List UInt8} →
    Object.Obeys (.legible registry) fields → nestingFields fields + depth ≤ limit →
    Object.toBytes fields = .ok bytes → bytes.length < fuel →
      ReadsFields registry limit fuel depth bytes fields
  | [], depth, fuel, bytes, _, _, hbytes, hfuel => by
    rw [Object.toBytes_nil] at hbytes
    cases hbytes
    obtain ⟨n, rfl⟩ : ∃ n, fuel = n + 1 := ⟨fuel - 1, by omega⟩
    exact ⟨n, fun inner taken rest position => rfl⟩
  | (f, v) :: fields, depth, fuel, bytes, hlegible, hdepth, hbytes, hfuel => by
    obtain ⟨hf, hv, hrest⟩ := Object.obeys_cons.1 hlegible
    have hfits : registry.Fits f v := hf.1
    obtain ⟨inner, framed, tail, hinner, hframed, htail, rfl⟩ :=
      Object.toBytes_cons_eq_ok_iff.1 hbytes
    have hheader := f.header.length_bytes_pos
    simp only [List.length_append] at hfuel
    rw [nestingFields] at hdepth
    obtain ⟨fuel, rfl⟩ : ∃ n, fuel = n + 1 := ⟨fuel - 1, by omega⟩
    have hlength : inner.length ≤ framed.length := f.length_le_of_frame hframed
    have hvalue : (readInField registry limit fuel f).Reads depth (framed ++ f.closing) v :=
      reads_readOfFieldWith_closing hframed (fun hkind => (hf.2.2.object hkind).1)
        (reads_readKind hregistry v hf hv (by omega) hinner (by omega))
    obtain ⟨n, hn⟩ : ReadsFields registry limit fuel depth tail fields :=
      readsFields hregistry fields hrest (by omega) htail (by omega)
    have hfield : registry.readField.Reads depth f.header.bytes f :=
      hregistry.reads_readField hfits.mem hfits.serialized
    have hnames : f.name ≠ objectEndName ∧ f.name ≠ arrayEndName := by
      simpa [Field.isMarker] using hfits.not_marker
    refine ⟨n, fun inner' taken rest position => ?_⟩
    -- the header is there, so neither reader stops before the field
    have hmore : f.header.bytes ++ (framed ++ (f.closing ++ tail)) ++ rest ≠ [] := by
      intro hnil
      rw [← List.length_eq_zero_iff, List.length_append, List.length_append] at hnil
      omega
    rw [readFields_succ (.inr hmore), List.append_assoc, Reader.bind_of_ok (hfield _ _),
      if_neg hnames.1, if_neg hnames.2, ← List.append_assoc framed, List.append_assoc,
      Reader.bind_of_ok (hvalue _ _), hn, List.reverse_cons, List.append_assoc]
    simp only [List.length_append, Nat.add_assoc]
    rfl

/-- Legible elements read back up to the end marker. -/
theorem reads_readElements (hregistry : registry.WellFormed)
    (hend : registry.WritesMarker arrayEndName) :
    (elements : List (Field × List (Field × Value))) → {depth fuel : Nat} →
    {bytes : List UInt8} → (taken : List Element) → ElementsObey (.legible registry) elements →
    nestingElements elements + depth ≤ limit → (array elements).toBytes = .ok bytes →
    bytes.length ≤ fuel →
      (readElements registry limit fuel taken).Reads depth bytes (taken.reverse ++ elements)
  | [], depth, fuel, bytes, taken, _, _, hbytes, hfuel => by
    rw [toBytes_array_nil] at hbytes
    cases hbytes
    rw [List.length_singleton] at hfuel
    obtain ⟨fuel, rfl⟩ : ∃ n, fuel = n + 1 := ⟨fuel - 1, by omega⟩
    rw [List.append_nil]
    exact hregistry.reads_readElements_end hend taken
  | (f, fields) :: elements, depth, fuel, bytes, taken, hlegible, hdepth, hbytes, hfuel => by
    obtain ⟨⟨hwraps, -, hframes⟩, hfields, hrest⟩ := elementsObey_cons.1 hlegible
    obtain ⟨body, tail, hbody, htail, rfl⟩ := toBytes_array_cons_eq_ok_iff.1 hbytes
    have hheader := f.header.length_bytes_pos
    simp only [List.length_append, List.length_cons] at hfuel
    rw [nestingElements] at hdepth
    obtain ⟨fuel, rfl⟩ : ∃ n, fuel = n + 1 := ⟨fuel - 1, by omega⟩
    -- the header took a byte, which pays for the step down in the number that bounds the recursion
    have hobject : ReadsFields registry limit fuel (depth + 1) body fields :=
      readsFields hregistry fields hfields (by omega) hbody (by omega)
    have helements : (readElements registry limit fuel ((f, fields) :: taken)).Reads depth tail
        (((f, fields) :: taken).reverse ++ elements) :=
      reads_readElements hregistry hend elements _ hrest (by omega) htail (by omega)
    rw [readElements]
    refine (hregistry.reads_readField hwraps.mem hframes.serialized).bind ?_
    rw [if_neg hframes.name_ne, if_pos hwraps.element]
    rw [List.reverse_cons, List.append_assoc] at helements
    have hnested := hobject.reads_nested hregistry hframes.objectEnd (show depth < limit by omega)
    rw [List.append_cons]
    exact hnested.bind helements
end

end Value

namespace Object

variable {registry : Registry} {limit : Nat}

/-- A legible object is read from what is written for it. -/
theorem ofBytes_of_legible (hregistry : registry.WellFormed) {fields : Object}
    (hlegible : Obeys (.legible registry) fields) (hdepth : nesting fields ≤ limit)
    {bytes : List UInt8} (hbytes : fields.toBytes = .ok bytes) :
    ofBytes registry limit bytes = .ok fields := by
  obtain ⟨n, hn⟩ : Value.ReadsFields registry limit (bytes.length + 1) 0 bytes fields :=
    Value.readsFields hregistry fields hlegible hdepth hbytes (Nat.lt_succ_self _)
  have hread := hn false [] [] 0
  rw [List.append_nil, List.append_nil] at hread
  have hroot : readRoot registry limit (Cursor.start bytes) =
      Value.readFields registry limit (bytes.length + 1) false [] ⟨bytes, 0, 0⟩ := rfl
  rw [ofBytes, hroot, hread, Value.readFields_end, List.reverse_reverse]

/-- A fitting object without wrapped array end markers is read from what is written for it. -/
theorem ofBytes_of_toBytes (hregistry : registry.Regular) {fields : Object}
    (hfits : Obeys (.fits registry) fields) (hunmarked : Obeys .unmarked fields)
    (hdepth : nesting fields ≤ limit) {bytes : List UInt8} (hbytes : fields.toBytes = .ok bytes) :
    ofBytes registry limit bytes = .ok fields :=
  ofBytes_of_legible hregistry.accepted.wellFormed (hregistry.legible hfits hunmarked) hdepth hbytes

end Object

end FieldWire
