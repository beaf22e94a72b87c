import FieldWire.Proofs.Value.ReadBack

/-!
# Read values are written back

Whatever the reader of a value accepts fits its field and takes as many bytes as its width says;
and unless a length in it goes beyond what is written, these bytes are the only ones that stand for
the value, because writing gives them back (`Value.ReadFrom`). An inner object and an array end with
their markers. The object that is read from a byte string either goes on to the last byte, and then
is written with these bytes (`Object.toBytes_of_ofBytes`), or is ended by the end marker of objects
(`Object.Closed`), and then nothing is said of the bytes behind it.
-/

namespace FieldWire

namespace Value

variable {depth : Nat}

/-! ### Leaves -/

private theorem yields_readWord (kind : Kind) (width : Nat) (length : Option Nat) :
    (readWord kind width length).Yields depth fun taken n =>
      taken = BigEndian.ofNat width n ∧ n < Nat.pow 256 width :=
  (Reader.Yields.checkWidth _ _ _).nil_bind fun _ _ => .number width

private theorem yields_readOctets (kind : Kind) (width : Nat) (length : Option Nat) :
    (readOctets kind width length).Yields depth fun taken bytes => taken = bytes.toList :=
  (Reader.Yields.checkWidth _ _ _).nil_bind fun _ _ => .octets width

private theorem yields_readHashes (count : Nat) (taken : List (Octets 32)) :
    (readHashes count taken).Yields depth fun u result =>
      ∃ hashes, result = taken.reverse ++ hashes ∧ u = hashes.flatMap Octets.toList := by
  induction count generalizing taken with
  | zero => exact .pure ⟨[], (List.append_nil _).symm, rfl⟩
  | succ count ih =>
    refine (Reader.Yields.octets 32).bind ?_
    rintro _ hash rfl
    refine (ih (hash :: taken)).mono ?_
    rintro _ _ ⟨hashes, rfl, rfl⟩
    exact ⟨hash :: hashes, by rw [List.reverse_cons, List.append_assoc]; rfl, rfl⟩

private theorem yields_readVector (length : Option Nat) :
    (readVector length).Yields depth fun taken hashes => taken = hashes.flatMap Octets.toList := by
  cases length with
  | none => exact .throw _
  | some n =>
    rw [readVector]
    split
    · refine (yields_readHashes _ _).mono ?_
      rintro _ _ ⟨hashes, rfl, rfl⟩
      rfl
    · exact .throw _

private theorem yields_readBlob (length : Option Nat) :
    (readBlob length).Yields depth fun taken bytes => taken = bytes := by
  cases length with
  | none => exact .throw _
  | some n => exact (Reader.Yields.take n).mono fun _ _ h => h.1

/-- A leaf that is read is of its kind, proper, and was given by its bytes. -/
theorem yields_leaf {kind : Kind} (hobject : kind ≠ .object) (harray : kind ≠ .array)
    (length : Option Nat) (objects : Reader Object) (arrays : Reader (List Element)) :
    (readWith objects arrays kind length).Yields depth fun taken v =>
      v.kind = kind ∧ v.IsProper ∧ v.toBytes = .ok taken := by
  cases kind
  case object => exact absurd rfl hobject
  case array => exact absurd rfl harray
  case uint8 =>
    refine (yields_readWord _ _ _).bind ?_
    rintro _ n ⟨rfl, hn⟩
    refine .pure ⟨rfl, trivial, ?_⟩
    rw [toBytes, write, Writer.run_append, UInt8.toNat_ofNat_of_lt' hn, List.append_nil]
  case uint16 =>
    refine (yields_readWord _ _ _).bind ?_
    rintro _ n ⟨rfl, hn⟩
    refine .pure ⟨rfl, trivial, ?_⟩
    rw [toBytes, write, Writer.run_append, UInt16.toNat_ofNat_of_lt' hn, List.append_nil]
  case uint32 =>
    refine (yields_readWord _ _ _).bind ?_
    rintro _ n ⟨rfl, hn⟩
    refine .pure ⟨rfl, trivial, ?_⟩
    rw [toBytes, write, Writer.run_append, UInt32.toNat_ofNat_of_lt' hn, List.append_nil]
  case uint64 =>
    refine (yields_readWord _ _ _).bind ?_
    rintro _ n ⟨rfl, hn⟩
    refine .pure ⟨rfl, trivial, ?_⟩
    rw [toBytes, write, Writer.run_append, UInt64.toNat_ofNat_of_lt' hn, List.append_nil]
  case hash128 | hash160 | hash256 | account =>
    refine (yields_readOctets _ _ _).bind ?_
    rintro _ bytes rfl
    refine .pure ⟨rfl, trivial, ?_⟩
    rw [toBytes, write, Writer.run_append, List.append_nil]
  case blob =>
    refine (yields_readBlob _).bind ?_
    rintro _ bytes rfl
    refine .pure ⟨rfl, trivial, ?_⟩
    rw [toBytes, write, Writer.run_append, List.append_nil]
  case amount =>
    refine (Amount.yields_read _).bind ?_
    rintro _ a ⟨rfl, ha⟩
    refine .pure ⟨rfl, ha, ?_⟩
    rw [toBytes, write, Writer.run_append, List.append_nil]
  case currency =>
    refine (Currency.yields_read _).bind ?_
    rintro _ c ⟨rfl, hc⟩
    refine .pure ⟨rfl, hc, ?_⟩
    rw [toBytes, write, Writer.run_append, List.append_nil]
  case issue =>
    refine (Issue.yields_read _).bind ?_
    rintro _ i ⟨rfl, hi⟩
    refine .pure ⟨rfl, hi, ?_⟩
    rw [toBytes, write, Writer.run_append, List.append_nil]
  case vector256 =>
    refine (yields_readVector _).bind ?_
    rintro _ hashes rfl
    refine .pure ⟨rfl, trivial, ?_⟩
    rw [toBytes, write, Writer.run_append, List.append_nil]
  case pathSet =>
    refine PathSet.yields_read.bind ?_
    rintro taken paths ⟨hbytes, hpaths⟩
    refine .pure ⟨rfl, hpaths, ?_⟩
    rw [toBytes, write, Writer.run_appendOf, hbytes, List.append_nil]

/-! ### Bytes that stand for a value -/

/-- The value fits, has the width of the bytes, and is written with them unless a length in it goes
beyond what is written. -/
structure ReadFrom (registry : Registry) (v : Value) (bytes : List UInt8) : Prop where
  /-- Fields fit their values. -/
  fits : v.Obeys (.fits registry)
  /-- No element is wrapped in an end marker. -/
  unmarked : v.Obeys .unmarked
  /-- The width counts the bytes. -/
  length_eq : bytes.length = v.width
  /-- Writing gives the bytes back. -/
  toBytes_eq : v.Obeys .writable → v.toBytes = .ok bytes

/-- The bytes of a value with its length, where the field has one. -/
structure FramedFrom (f : Field) (inner framed : List UInt8) : Prop where
  /-- The width counts the bytes. -/
  length_eq : framed.length = f.framedWidth inner.length
  /-- Writing gives the bytes back. -/
  frame_eq : (f.variableLength = true → inner.length ≤ LengthPrefix.maxLength) →
    f.frame inner = .ok framed

variable {registry : Registry} {limit : Nat}

theorem readFrom_object_nil : (object []).ReadFrom registry [] where
  fits := obeys_object.2 Object.obeys_nil
  unmarked := obeys_object.2 Object.obeys_nil
  length_eq := by rw [width_object, widthFields, List.length_nil]
  toBytes_eq _ := by rw [toBytes_object, Object.toBytes_nil]

theorem ReadFrom.object_cons {f : Field} {v : Value} {rest : Object}
    {inner framed tail : List UInt8} (hf : registry.Fits f v) (hv : v.ReadFrom registry inner)
    (hframed : FramedFrom f inner framed) (hrest : (object rest).ReadFrom registry tail) :
    (object ((f, v) :: rest)).ReadFrom registry
      (f.header.bytes ++ (framed ++ (f.closing ++ tail))) where
  fits := obeys_object.2 (Object.obeys_cons.2 ⟨hf, hv.fits, obeys_object.1 hrest.fits⟩)
  unmarked := obeys_object.2
    (Object.obeys_cons.2 ⟨trivial, hv.unmarked, obeys_object.1 hrest.unmarked⟩)
  length_eq := by
    have hlength := hrest.length_eq
    rw [width_object] at hlength ⊢
    rw [widthFields, List.length_append, List.length_append, List.length_append,
      hframed.length_eq, hv.length_eq, hlength]
  toBytes_eq hwritable := by
    obtain ⟨hlength, hv', hrest'⟩ := Object.obeys_cons.1 (obeys_object.1 hwritable)
    have htail := hrest.toBytes_eq (obeys_object.2 hrest')
    rw [toBytes_object] at htail ⊢
    refine Object.toBytes_cons_eq_ok_iff.2
      ⟨inner, framed, tail, hv.toBytes_eq hv', hframed.frame_eq fun h => ?_, htail, rfl⟩
    rw [hv.length_eq]
    exact hlength h

theorem readFrom_array_nil : (array []).ReadFrom registry [arrayEnd] where
  fits := obeys_array.2 elementsObey_nil
  unmarked := obeys_array.2 elementsObey_nil
  length_eq := by rw [width_array, widthElements, List.length_singleton]
  toBytes_eq _ := toBytes_array_nil

theorem ReadFrom.array_cons {f : Field} {fields : Object} {rest : List Element}
    {body tail : List UInt8} (hf : registry.Wraps f) (hname : f.name ≠ arrayEndName)
    (hfields : (object fields).ReadFrom registry body)
    (hrest : (array rest).ReadFrom registry tail) :
    (array ((f, fields) :: rest)).ReadFrom registry
      (f.header.bytes ++ (body ++ objectEnd :: tail)) where
  fits := obeys_array.2
    (elementsObey_cons.2 ⟨hf, obeys_object.1 hfields.fits, obeys_array.1 hrest.fits⟩)
  unmarked := obeys_array.2
    (elementsObey_cons.2 ⟨hname, obeys_object.1 hfields.unmarked, obeys_array.1 hrest.unmarked⟩)
  length_eq := by
    have hlength := hrest.length_eq
    have hlength' := hfields.length_eq
    rw [width_array] at hlength ⊢
    rw [width_object] at hlength'
    rw [widthElements, List.length_append, List.length_append, List.length_cons, hlength, hlength']
  toBytes_eq hwritable := by
    obtain ⟨-, hfields', hrest'⟩ := elementsObey_cons.1 (obeys_array.1 hwritable)
    have hbody := hfields.toBytes_eq (obeys_object.2 hfields')
    rw [toBytes_object] at hbody
    exact toBytes_array_cons_eq_ok_iff.2
      ⟨body, tail, hbody, hrest.toBytes_eq (obeys_array.2 hrest'), rfl⟩

/-! ### Fields -/

/-- A value behind a length was given by the bytes of the length and by so many bytes. -/
theorem yields_readOfFieldWith_of_length {value : Kind → Option Nat → Reader Value} {f : Field}
    {L : List UInt8 → Nat → Prop} {P : Nat → List UInt8 → Value → Prop}
    (hlength : f.variableLength = true) (hhead : LengthPrefix.read.Yields depth L)
    (hvalue : ∀ n, (value f.kind (some n)).Yields depth (P n)) :
    (readOfFieldWith value f).Yields depth fun taken v =>
      ∃ head inner, taken = head ++ inner ∧ L head inner.length ∧ P inner.length inner v := by
  rw [readOfFieldWith, if_pos hlength]
  refine hhead.bind fun head n hn => ?_
  refine (Reader.Yields.need n).nil_bind fun _ _ => ?_
  intro c v d hc hok
  have hget : ∀ c : Cursor, (get : Reader Cursor) c = .ok c c := fun _ => rfl
  rw [Reader.bind_of_ok (hget c)] at hok
  obtain ⟨v', e, hv', hok⟩ := Reader.bind_eq_ok_iff.1 hok
  rw [Reader.bind_of_ok (hget e)] at hok
  -- the reader compares positions, which tell how many bytes the value took
  obtain ⟨inner, hrest, hposition, hdepth, hP⟩ := hvalue n c v' e hc hv'
  split at hok
  · next hused =>
    cases hok
    rw [hposition, Nat.add_sub_cancel_left] at hused
    subst hused
    exact ⟨inner, hrest, hposition, hdepth, head, inner, rfl, hn, hP⟩
  · cases hok

/-- A value is read with the length in front of it, where the field has one, and that length is the
value's. -/
theorem yields_readOfFieldWith {value : Kind → Option Nat → Reader Value} {f : Field}
    {P : List UInt8 → Value → Prop}
    (hvalue : ∀ length, (f.variableLength = false → length = none) →
      (value f.kind length).Yields depth P) :
    (readOfFieldWith value f).Yields depth fun taken v =>
      ∃ inner, P inner v ∧ FramedFrom f inner taken := by
  cases hlength : f.variableLength with
  | false =>
    rw [readOfFieldWith, hlength, if_neg Bool.false_ne_true]
    refine (hvalue none fun _ => rfl).mono fun inner v hv => ⟨inner, hv, ?_, fun _ => ?_⟩
    · rw [Field.framedWidth, hlength, if_neg Bool.false_ne_true]
    · rw [f.frame_of_fixedLength hlength]
  | true =>
    refine (yields_readOfFieldWith_of_length hlength LengthPrefix.yields_read fun n =>
      hvalue (some n) fun h => absurd h (Bool.ne_false_iff.2 hlength)).mono ?_
    rintro _ v ⟨head, inner, rfl, ⟨hwidth, hhead⟩, hP⟩
    refine ⟨inner, hP, ?_, fun hmax => ?_⟩
    · rw [Field.framedWidth, if_pos hlength, List.length_append, hwidth]
    · rw [f.frame_of_variableLength hlength, Writer.prefixed, hhead (hmax hlength)]
      rfl

/-! ### Nested values -/

/-- What the reader of an inner object yields. -/
def InnerFrom (registry : Registry) (taken : Object) (u : List UInt8) (result : Object) : Prop :=
  ∃ fields body, result = taken.reverse ++ fields ∧ u = body ++ [objectEnd] ∧
    (object fields).ReadFrom registry body

/-- What the reader of an array yields. -/
def ElementsFrom (registry : Registry) (taken : List Element) (u : List UInt8)
    (result : List Element) : Prop :=
  ∃ elements, result = taken.reverse ++ elements ∧ (array elements).ReadFrom registry u

/-- What the reader of a value in its field yields. -/
def ValueFrom (registry : Registry) (f : Field) (u : List UInt8) (v : Value) : Prop :=
  registry.Fits f v ∧ ∃ inner framed, v.ReadFrom registry inner ∧ FramedFrom f inner framed ∧
    u = framed ++ f.closing

private theorem bytes_of_objectEnd (hregistry : registry.Regular) {f : Field}
    (hf : f ∈ registry.fields) (hname : f.name = objectEndName) : f.header.bytes = [objectEnd] := by
  obtain ⟨marker, hmarker, hname', hbytes⟩ := hregistry.accepted.wellFormed.objectEnd
  rwa [hregistry.accepted.wellFormed.eq_of_name hf hmarker (hname.trans hname'.symm)]

private theorem bytes_of_arrayEnd (hregistry : registry.Regular) {f : Field}
    (hf : f ∈ registry.fields) (hname : f.name = arrayEndName) : f.header.bytes = [arrayEnd] := by
  obtain ⟨marker, hmarker, hname', hbytes⟩ := hregistry.accepted.wellFormed.arrayEnd
  rwa [hregistry.accepted.wellFormed.eq_of_name hf hmarker (hname.trans hname'.symm)]

/-- A value other than an object, given what inner arrays yield. -/
private theorem yields_readWith {fuel : Nat}
    (helements : ∀ depth, (readElements registry limit fuel []).Yields depth
      (ElementsFrom registry [])) {kind : Kind} (hobject : kind ≠ .object) (length : Option Nat) :
    (readWith (Reader.nested limit (readFields registry limit fuel true []))
      (Reader.nested limit (readElements registry limit fuel [])) kind length).Yields depth
        fun inner v => v.kind = kind ∧ v.IsProper ∧ v.ReadFrom registry inner := by
  by_cases harray : kind = .array
  · rw [harray]
    refine (Reader.Yields.nested fun _ => helements (depth + 1)).bind ?_
    rintro _ _ ⟨-, elements, rfl, hfrom⟩
    refine .pure ⟨rfl, trivial, ?_⟩
    rwa [List.append_nil]
  · refine (yields_leaf hobject harray length _ _).mono ?_
    rintro inner v ⟨hkind, hproper, hbytes⟩
    have hleaf : v.IsLeaf := ⟨hkind ▸ hobject, hkind ▸ harray⟩
    exact ⟨hkind, hproper, obeys_of_isLeaf hleaf, obeys_of_isLeaf hleaf,
      length_of_toBytes v hbytes, fun _ => hbytes⟩

/-- A value in its field, given what inner objects and arrays yield. -/
private theorem yields_readInField (hregistry : registry.Regular) {fuel : Nat}
    (hfields : ∀ depth, (readFields registry limit fuel true []).Yields depth
      (InnerFrom registry []))
    (helements : ∀ depth, (readElements registry limit fuel []).Yields depth
      (ElementsFrom registry [])) {f : Field} (hf : f ∈ registry.fields)
    (hs : f.serialized = true) (hmarker : f.isMarker = false) :
    (readInField registry limit fuel f).Yields depth (ValueFrom registry f) := by
  by_cases hobject : f.kind = .object
  · have hfixed := hregistry.object_fixedLength f hf hobject
    rw [readInField, readOfFieldWith, hfixed, if_neg Bool.false_ne_true, hobject]
    refine (Reader.Yields.nested fun _ => hfields (depth + 1)).bind ?_
    rintro _ _ ⟨-, fields, body, rfl, rfl, hfrom⟩
    refine .pure ⟨⟨hf, hs, hmarker, hobject.symm, trivial⟩, body, body, hfrom, ⟨?_, ?_⟩, ?_⟩
    · rw [Field.framedWidth, hfixed, if_neg Bool.false_ne_true]
    · rw [f.frame_of_fixedLength hfixed]
      exact fun _ => rfl
    · rw [closing_of_object hobject, List.append_nil]
  · refine (yields_readOfFieldWith fun length _ =>
      yields_readWith helements hobject length).mono ?_
    rintro framed v ⟨inner, ⟨hkind, hproper, hfrom⟩, hframed⟩
    refine ⟨⟨hf, hs, hmarker, hkind, hproper⟩, inner, framed, hfrom, hframed, ?_⟩
    rw [closing_of_not_object hobject, List.append_nil]

/-- What the readers of inner objects and arrays yield stands in the bytes that they take. -/
private theorem yields_nested (hregistry : registry.Regular) (fuel : Nat) :
    (∀ depth taken, (readFields registry limit fuel true taken).Yields depth
      (InnerFrom registry taken)) ∧
    ∀ depth taken, (readElements registry limit fuel taken).Yields depth
      (ElementsFrom registry taken) := by
  induction fuel with
  | zero =>
    constructor
    · intro depth taken
      rw [readFields]
      exact .throw _
    · intro depth taken
      rw [readElements]
      exact .throw _
  | succ fuel ih =>
    obtain ⟨hfields, helements⟩ := ih
    constructor
    · intro depth taken
      have hunfold : readFields registry limit (fuel + 1) true taken = _ :=
        funext fun c => readFields_succ (.inl rfl)
      rw [hunfold]
      refine Registry.yields_readField.bind ?_
      rintro _ f ⟨rfl, hf, hs⟩
      split
      · next hname =>
        rw [bytes_of_objectEnd hregistry hf hname]
        exact .pure ⟨[], [], (List.append_nil _).symm, rfl, readFrom_object_nil⟩
      · next hobject =>
        split
        · exact .throw _
        · next harray =>
          have hmarker : f.isMarker = false := by simp [Field.isMarker, hobject, harray]
          refine (yields_readInField hregistry
            (hfields · []) (helements · []) hf hs hmarker).bind ?_
          rintro _ v ⟨hfits, inner, framed, hv, hframed, rfl⟩
          refine (hfields depth ((f, v) :: taken)).mono ?_
          rintro _ _ ⟨rest, tail, rfl, rfl, hrest⟩
          refine ⟨(f, v) :: rest, _, ?_, ?_, hv.object_cons hfits hframed hrest⟩
          · rw [List.reverse_cons, List.append_assoc]
            rfl
          · simp only [List.append_assoc]
    · intro depth taken
      rw [readElements]
      refine Registry.yields_readField.bind ?_
      rintro _ f ⟨rfl, hf, hs⟩
      split
      · next hname =>
        rw [bytes_of_arrayEnd hregistry hf hname]
        exact .pure ⟨[], (List.append_nil _).symm, readFrom_array_nil⟩
      · next hname =>
        split
        · next helement =>
          refine (Reader.Yields.nested fun _ => hfields (depth + 1) []).bind ?_
          rintro _ result ⟨-, fields, body, hresult, rfl, hbody⟩
          obtain rfl : fields = result := hresult.symm
          refine (helements depth ((f, fields) :: taken)).mono ?_
          rintro tail _ ⟨rest, rfl, hrest⟩
          refine ⟨(f, fields) :: rest, ?_, ?_⟩
          · rw [List.reverse_cons, List.append_assoc]
            rfl
          · rw [List.append_assoc]
            exact .array_cons ⟨hf, helement⟩ hname hbody hrest
        · exact .throw _

/-- The length that is read in front of a value is its width. -/
theorem lengthPrefix_of_readInField (hregistry : registry.Regular) {fuel : Nat} {f : Field}
    (hf : f ∈ registry.fields) (hlength : f.variableLength = true) {c d : Cursor} {v : Value}
    (h : readInField registry limit fuel f c = .ok v d) :
    ∃ e, LengthPrefix.read c = .ok v.width e := by
  have hobject : f.kind ≠ .object := by
    intro hobject
    rw [hregistry.object_fixedLength f hf hobject] at hlength
    cases hlength
  have hget : ∀ c : Cursor, (get : Reader Cursor) c = .ok c c := fun _ => rfl
  rw [readInField, readOfFieldWith, if_pos hlength] at h
  obtain ⟨n, e, hn, h⟩ := Reader.bind_eq_ok_iff.1 h
  obtain ⟨-, e₁, -, h⟩ := Reader.bind_eq_ok_iff.1 h
  rw [Reader.bind_of_ok (hget e₁)] at h
  obtain ⟨v', e₂, hv', h⟩ := Reader.bind_eq_ok_iff.1 h
  rw [Reader.bind_of_ok (hget e₂)] at h
  obtain ⟨inner, -, hposition, -, -, -, hfrom⟩ := yields_readWith
    ((yields_nested hregistry fuel).2 · []) hobject (some n) e₁ v' e₂ rfl hv'
  split at h
  · next hused =>
    cases h
    rw [hposition, Nat.add_sub_cancel_left, hfrom.length_eq] at hused
    exact ⟨e, by rw [hn, hused]⟩
  · cases h

/-! ### Whole byte strings -/

private theorem taken_of_yields {α : Type} {reader : Reader α} {P : List UInt8 → α → Prop}
    (h : ∀ depth, reader.Yields depth P) {c d : Cursor} {a : α} (hok : reader c = .ok a d) :
    ∃ taken, c.rest = taken ++ d.rest ∧ P taken a := by
  obtain ⟨taken, hrest, -, -, hP⟩ := h c.depth c a d rfl hok
  exact ⟨taken, hrest, hP⟩

/-- Fields that need no end marker either have one or go on to the last byte. -/
private theorem readFields_outer (hregistry : registry.Regular) {fuel : Nat} {taken : Object}
    {c d : Cursor} {result : Object}
    (h : readFields registry limit fuel false taken c = .ok result d) :
    (∃ e, readFields registry limit fuel true taken c = .ok result e) ∨
      ∃ fields, result = taken.reverse ++ fields ∧ (object fields).ReadFrom registry c.rest := by
  induction fuel generalizing taken c with
  | zero =>
    rw [readFields] at h
    cases h
  | succ fuel ih =>
    by_cases hend : c.rest = []
    · have hget : (get : Reader Cursor) c = .ok c c := rfl
      rw [readFields, Reader.bind_of_ok hget, hend] at h
      cases h
      exact .inr ⟨[], (List.append_nil _).symm, hend ▸ readFrom_object_nil⟩
    · rw [readFields_succ (.inr hend)] at h
      rw [readFields_succ (.inl rfl)]
      obtain ⟨f, e, hf, h⟩ := Reader.bind_eq_ok_iff.1 h
      rw [Reader.bind_of_ok hf]
      split at h
      · next hname => exact .inl ⟨d, by rwa [if_pos hname]⟩
      · next hobject =>
        rw [if_neg hobject]
        split at h
        · cases h
        · next harray =>
          rw [if_neg harray]
          obtain ⟨v, e', hv, h⟩ := Reader.bind_eq_ok_iff.1 h
          rw [Reader.bind_of_ok hv]
          refine (ih h).imp_right ?_
          rintro ⟨fields, rfl, hfields⟩
          obtain ⟨_, hheader, rfl, hmem, hs⟩ :=
            taken_of_yields (fun depth => Registry.yields_readField) hf
          have hmarker : f.isMarker = false := by simp [Field.isMarker, hobject, harray]
          have hnested := @yields_nested registry limit hregistry fuel
          obtain ⟨_, hvalue, hfits, inner, framed, hinner, hframed, rfl⟩ :=
            taken_of_yields (fun depth => yields_readInField hregistry (hnested.1 · [])
              (hnested.2 · []) hmem hs hmarker) hv
          refine ⟨(f, v) :: fields, ?_, ?_⟩
          · rw [List.reverse_cons, List.append_assoc]
            rfl
          · rw [hheader, hvalue, List.append_assoc]
            exact hinner.object_cons hfits hframed hfields

end Value

namespace Object

variable {registry : Registry} {limit : Nat} {bytes : List UInt8} {fields : Object}

/-- The bytes hold an object up to an end marker, perhaps with more bytes behind it. -/
def Closed (registry : Registry) (limit : Nat) (bytes : List UInt8) : Prop :=
  ∃ fields c, Value.readFields registry limit (bytes.length + 1) true [] (Cursor.start bytes) =
    .ok fields c

/-- What is read from a byte string stands in it, up to the end marker or as a whole. -/
theorem readFrom_of_ofBytes (hregistry : registry.Regular)
    (h : ofBytes registry limit bytes = .ok fields) :
    (Closed registry limit bytes ∧ ∃ body tail, bytes = body ++ objectEnd :: tail ∧
      (Value.object fields).ReadFrom registry body) ∨
        (Value.object fields).ReadFrom registry bytes := by
  rw [ofBytes] at h
  split at h
  · next result c hroot =>
    cases h
    have hread : Value.readFields registry limit (bytes.length + 1) false []
        (Cursor.start bytes) = .ok fields c := hroot
    obtain ⟨e, he⟩ | ⟨fields, rfl, hfields⟩ := Value.readFields_outer hregistry hread
    · obtain ⟨_, hbytes, fields', body, rfl, rfl, hfields⟩ := Value.taken_of_yields
        (fun depth => (Value.yields_nested hregistry (bytes.length + 1)).1 depth []) he
      rw [List.append_assoc] at hbytes
      exact .inl ⟨⟨_, e, he⟩, body, e.rest, hbytes, hfields⟩
    · exact .inr hfields
  · cases h

/-- An object that is read fits, and none of its elements is wrapped in an end marker. -/
theorem fits_of_ofBytes (hregistry : registry.Regular)
    (h : ofBytes registry limit bytes = .ok fields) :
    Obeys (.fits registry) fields ∧ Obeys .unmarked fields := by
  obtain ⟨-, body, -, -, hbody⟩ | hbytes := readFrom_of_ofBytes hregistry h
  · exact ⟨Value.obeys_object.1 hbody.fits, Value.obeys_object.1 hbody.unmarked⟩
  · exact ⟨Value.obeys_object.1 hbytes.fits, Value.obeys_object.1 hbytes.unmarked⟩

/-- An object that is read takes no more bytes than there are. -/
theorem width_le_of_ofBytes (hregistry : registry.Regular)
    (h : ofBytes registry limit bytes = .ok fields) : Value.widthFields fields ≤ bytes.length := by
  rw [← Value.width_object]
  obtain ⟨-, body, tail, rfl, hbody⟩ | hbytes := readFrom_of_ofBytes hregistry h
  · rw [← hbody.length_eq, List.length_append]
    exact Nat.le_add_right _ _
  · rw [hbytes.length_eq]

/-- An object that goes on to the last byte is written with the bytes that it was read from. -/
theorem toBytes_of_ofBytes (hregistry : registry.Regular)
    (h : ofBytes registry limit bytes = .ok fields) (hopen : ¬Closed registry limit bytes)
    (hwritable : Obeys .writable fields) : fields.toBytes = .ok bytes := by
  obtain ⟨hclosed, -⟩ | hbytes := readFrom_of_ofBytes hregistry h
  · exact absurd hclosed hopen
  · rw [← Value.toBytes_object]
    exact hbytes.toBytes_eq (Value.obeys_object.2 hwritable)

end Object

end FieldWire
