import FieldWire.Proofs.Value.ReadBack

/-!
# Arrays behind lengths

An array ends where its end marker stands, or, if its field has a length, where the length says. The
reader goes by the marker in both cases, but the bytes alone tell more: where every array stands
behind its length, different objects are written with different bytes, whatever their elements are
wrapped in (`Object.eq_of_toBytes_of_delimited`).

The proof takes the bytes of two objects apart side by side. Each step compares what comes next in
one with what comes next in the other, so bytes that stand behind are carried along, and nothing is
asked of the second object that does not follow from the first.
-/

namespace FieldWire

/-- Every array stands behind its length. -/
def Rule.delimited : Rule where
  entry f _ _ := f.kind = .array → f.variableLength = true
  wrapper _ := True

namespace Registry.Regular

variable {registry : Registry} {f g : Field} {rest rest' : List UInt8}

/-- What begins with the headers of two written fields begins with one. -/
theorem eq_of_append (h : registry.Regular) (hf : f ∈ registry.fields) (hfs : f.serialized = true)
    (hg : g ∈ registry.fields) (hgs : g.serialized = true)
    (heq : f.header.bytes ++ rest = g.header.bytes ++ rest') : f = g ∧ rest = rest' := by
  have hread : registry.readField.Reads 0 f.header.bytes f :=
    h.accepted.wellFormed.reads_readField hf hfs
  exact hread.unique (h.accepted.wellFormed.reads_readField hg hgs) heq

/-- The end marker of objects does not begin a field. -/
theorem objectEnd_ne (h : registry.Regular) {v : Value} (hfits : registry.Fits f v) :
    objectEnd :: rest ≠ f.header.bytes ++ rest' := by
  intro heq
  obtain ⟨marker, hmem, hname, hbytes⟩ := h.accepted.wellFormed.objectEnd
  have hmarker : marker.isMarker = true := by
    rw [Field.isMarker, hname]
    rfl
  rw [← List.singleton_append, ← hbytes] at heq
  obtain ⟨rfl, -⟩ := h.eq_of_append hmem (h.marker_serialized _ hmem hmarker) hfits.mem
    hfits.serialized heq
  rw [hfits.not_marker] at hmarker
  cases hmarker

end Registry.Regular

/-- What stands behind equal lengths is as long in both cases. -/
private theorem Writer.eq_of_prefixed {inner inner' framed framed' rest rest' : List UInt8}
    (h : Writer.prefixed inner = .ok framed) (h' : Writer.prefixed inner' = .ok framed')
    (heq : framed ++ rest = framed' ++ rest') : inner = inner' ∧ rest = rest' := by
  rw [Writer.prefixed, map_eq_ok_iff] at h h'
  obtain ⟨head, hhead, rfl⟩ := h
  obtain ⟨head', hhead', rfl⟩ := h'
  have hread : LengthPrefix.read.Reads 0 head inner.length := LengthPrefix.reads_read hhead
  rw [List.append_assoc, List.append_assoc] at heq
  obtain ⟨hlength, hbehind⟩ := hread.unique (LengthPrefix.reads_read hhead') heq
  exact List.append_inj hbehind hlength

namespace Value

variable {registry : Registry}

/-- Leaves in one field are told apart by their bytes. -/
private theorem eq_of_frame_leaf (hregistry : registry.Regular) {f : Field} {v v' : Value}
    (hleaf : v.IsLeaf) (hfits : registry.Fits f v) (hfits' : registry.Fits f v')
    {inner inner' framed framed' rest rest' : List UInt8}
    (hinner : v.toBytes = .ok inner) (hinner' : v'.toBytes = .ok inner')
    (hframed : f.frame inner = .ok framed) (hframed' : f.frame inner' = .ok framed')
    (heq : framed ++ f.closing ++ rest = framed' ++ f.closing ++ rest') :
    v = v' ∧ rest = rest' := by
  have hleaf' : v'.IsLeaf := by
    rwa [IsLeaf, hfits'.kind, ← hfits.kind]
  have hmeasured := hregistry.isMeasured hfits.mem
  have hread : (readInField registry 0 0 f).Reads 0 (framed ++ f.closing) v :=
    reads_readInField_leaf hleaf hfits hmeasured hinner hframed 0
  exact hread.unique (reads_readInField_leaf hleaf' hfits' hmeasured hinner' hframed' 0) heq

/-- An element takes more than one byte. -/
private theorem singleton_ne_element (f : Field) (body tail : List UInt8) :
    [arrayEnd] ≠ f.header.bytes ++ (body ++ objectEnd :: tail) := by
  intro heq
  have hlength := congrArg List.length heq
  have hheader := f.header.length_bytes_pos
  simp only [List.length_append, List.length_cons, List.length_nil] at hlength
  omega

mutual
/-- Values in one field are told apart by their bytes, if the arrays in one of them stand behind
their lengths. -/
private theorem eq_of_frame (hregistry : registry.Regular) : (v : Value) → {v' : Value} →
    {f : Field} → {inner inner' framed framed' rest rest' : List UInt8} →
    registry.Fits f v → v.Obeys (.fits registry) → registry.Fits f v' →
    v'.Obeys (.fits registry) → (f.kind = .array → f.variableLength = true) →
    v.Obeys .delimited → v.toBytes = .ok inner → v'.toBytes = .ok inner' →
    f.frame inner = .ok framed → f.frame inner' = .ok framed' →
    framed ++ f.closing ++ rest = framed' ++ f.closing ++ rest' → v = v' ∧ rest = rest'
  | .object fields, v', f, inner, inner', framed, framed', rest, rest', hfits, hv, hfits', hv', _,
      hdelimited, hinner, hinner', hframed, hframed', heq => by
    have hkind : f.kind = .object := hfits.kind.symm
    obtain ⟨fields', rfl⟩ : ∃ fields', v' = .object fields' := by
      have hkind' := hfits'.kind.trans hkind
      cases v' <;> cases hkind'
      exact ⟨_, rfl⟩
    have hfixed := hregistry.object_fixedLength f hfits.mem hkind
    rw [f.frame_of_fixedLength hfixed] at hframed hframed'
    cases hframed
    cases hframed'
    rw [toBytes_object] at hinner hinner'
    rw [closing_of_object hkind, List.append_assoc, List.append_assoc] at heq
    obtain ⟨rfl, hrest⟩ := eq_of_toBytesFields hregistry fields (obeys_object.1 hv)
      (obeys_object.1 hv') (obeys_object.1 hdelimited) hinner hinner' heq
    exact ⟨rfl, hrest⟩
  | .array elements, v', f, inner, inner', framed, framed', rest, rest', hfits, hv, hfits', hv',
      hlength, hdelimited, hinner, hinner', hframed, hframed', heq => by
    have hkind : f.kind = .array := hfits.kind.symm
    obtain ⟨elements', rfl⟩ : ∃ elements', v' = .array elements' := by
      have hkind' := hfits'.kind.trans hkind
      cases v' <;> cases hkind'
      exact ⟨_, rfl⟩
    -- equal lengths leave nothing to be told by the end markers
    rw [f.frame_of_variableLength (hlength hkind)] at hframed hframed'
    rw [closing_of_not_object (hkind ▸ nofun), List.append_nil, List.append_nil] at heq
    obtain ⟨rfl, hrest⟩ := Writer.eq_of_prefixed hframed hframed' heq
    obtain rfl := eq_of_toBytesElements hregistry elements (obeys_array.1 hv) (obeys_array.1 hv')
      (obeys_array.1 hdelimited) hinner hinner'
    exact ⟨rfl, hrest⟩
  | .uint8 _, _, _, _, _, _, _, _, _, h, _, h', _, _, _, hi, hi', hf, hf', heq
  | .uint16 _, _, _, _, _, _, _, _, _, h, _, h', _, _, _, hi, hi', hf, hf', heq
  | .uint32 _, _, _, _, _, _, _, _, _, h, _, h', _, _, _, hi, hi', hf, hf', heq
  | .uint64 _, _, _, _, _, _, _, _, _, h, _, h', _, _, _, hi, hi', hf, hf', heq
  | .hash128 _, _, _, _, _, _, _, _, _, h, _, h', _, _, _, hi, hi', hf, hf', heq
  | .hash160 _, _, _, _, _, _, _, _, _, h, _, h', _, _, _, hi, hi', hf, hf', heq
  | .hash256 _, _, _, _, _, _, _, _, _, h, _, h', _, _, _, hi, hi', hf, hf', heq
  | .account _, _, _, _, _, _, _, _, _, h, _, h', _, _, _, hi, hi', hf, hf', heq
  | .blob _, _, _, _, _, _, _, _, _, h, _, h', _, _, _, hi, hi', hf, hf', heq
  | .amount _, _, _, _, _, _, _, _, _, h, _, h', _, _, _, hi, hi', hf, hf', heq
  | .currency _, _, _, _, _, _, _, _, _, h, _, h', _, _, _, hi, hi', hf, hf', heq
  | .issue _, _, _, _, _, _, _, _, _, h, _, h', _, _, _, hi, hi', hf, hf', heq
  | .vector256 _, _, _, _, _, _, _, _, _, h, _, h', _, _, _, hi, hi', hf, hf', heq
  | .pathSet _, _, _, _, _, _, _, _, _, h, _, h', _, _, _, hi, hi', hf, hf', heq =>
    eq_of_frame_leaf hregistry (by exact ⟨nofun, nofun⟩) h h' hi hi' hf hf' heq

/-- Fields and the end marker of their object are told apart by their bytes. -/
private theorem eq_of_toBytesFields (hregistry : registry.Regular) :
    (fields : List (Field × Value)) → {fields' : List (Field × Value)} →
    {bytes bytes' rest rest' : List UInt8} → Object.Obeys (.fits registry) fields →
    Object.Obeys (.fits registry) fields' → Object.Obeys .delimited fields →
    Object.toBytes fields = .ok bytes → Object.toBytes fields' = .ok bytes' →
    bytes ++ objectEnd :: rest = bytes' ++ objectEnd :: rest' → fields = fields' ∧ rest = rest'
  | [], [], bytes, bytes', rest, rest', _, _, _, hbytes, hbytes', heq => by
    rw [Object.toBytes_nil] at hbytes hbytes'
    cases hbytes
    cases hbytes'
    exact ⟨rfl, (List.cons.inj heq).2⟩
  | [], (f, v) :: fields', bytes, bytes', rest, rest', _, hfits', _, hbytes, hbytes', heq => by
    obtain ⟨inner, framed, tail, -, -, -, rfl⟩ := Object.toBytes_cons_eq_ok_iff.1 hbytes'
    rw [Object.toBytes_nil] at hbytes
    cases hbytes
    rw [List.append_assoc] at heq
    exact absurd heq (hregistry.objectEnd_ne (Object.obeys_cons.1 hfits').1)
  | (f, v) :: fields, [], bytes, bytes', rest, rest', hfits, _, _, hbytes, hbytes', heq => by
    obtain ⟨inner, framed, tail, -, -, -, rfl⟩ := Object.toBytes_cons_eq_ok_iff.1 hbytes
    rw [Object.toBytes_nil] at hbytes'
    cases hbytes'
    rw [List.append_assoc] at heq
    exact absurd heq.symm (hregistry.objectEnd_ne (Object.obeys_cons.1 hfits).1)
  | (f, v) :: fields, (f', v') :: fields', bytes, bytes', rest, rest', hfits, hfits', hdelimited,
      hbytes, hbytes', heq => by
    obtain ⟨hf, hv, hrest⟩ := Object.obeys_cons.1 hfits
    obtain ⟨hf', hv', hrest'⟩ := Object.obeys_cons.1 hfits'
    obtain ⟨hlength, hvalue, hbehind⟩ := Object.obeys_cons.1 hdelimited
    obtain ⟨inner, framed, tail, hinner, hframed, htail, rfl⟩ :=
      Object.toBytes_cons_eq_ok_iff.1 hbytes
    obtain ⟨inner', framed', tail', hinner', hframed', htail', rfl⟩ :=
      Object.toBytes_cons_eq_ok_iff.1 hbytes'
    rw [List.append_assoc, List.append_assoc f'.header.bytes] at heq
    obtain ⟨rfl, hvalues⟩ :=
      hregistry.eq_of_append hf.mem hf.serialized hf'.mem hf'.serialized heq
    simp only [List.append_assoc] at hvalues
    rw [← List.append_assoc, ← List.append_assoc framed'] at hvalues
    obtain ⟨rfl, htails⟩ := eq_of_frame hregistry v hf hv hf' hv' hlength hvalue hinner hinner'
      hframed hframed' hvalues
    obtain ⟨rfl, hends⟩ :=
      eq_of_toBytesFields hregistry fields hrest hrest' hbehind htail htail' htails
    exact ⟨rfl, hends⟩

/-- Elements are told apart by the bytes of their array. -/
private theorem eq_of_toBytesElements (hregistry : registry.Regular) :
    (elements : List (Field × List (Field × Value))) →
    {elements' : List (Field × List (Field × Value))} → {bytes : List UInt8} →
    ElementsObey (.fits registry) elements → ElementsObey (.fits registry) elements' →
    ElementsObey .delimited elements → (array elements).toBytes = .ok bytes →
    (array elements').toBytes = .ok bytes → elements = elements'
  | [], [], _, _, _, _, _, _ => rfl
  | [], (f, fields) :: elements', bytes, _, _, _, hbytes, hbytes' => by
    obtain ⟨body, tail, -, -, rfl⟩ := toBytes_array_cons_eq_ok_iff.1 hbytes'
    rw [toBytes_array_nil] at hbytes
    exact absurd (Except.ok.inj hbytes) (singleton_ne_element f body tail)
  | (f, fields) :: elements, [], bytes, _, _, _, hbytes, hbytes' => by
    obtain ⟨body, tail, -, -, rfl⟩ := toBytes_array_cons_eq_ok_iff.1 hbytes
    rw [toBytes_array_nil] at hbytes'
    exact absurd (Except.ok.inj hbytes') (singleton_ne_element f body tail)
  | (f, fields) :: elements, (f', fields') :: elements', bytes, hfits, hfits', hdelimited, hbytes,
      hbytes' => by
    obtain ⟨hf, hfields, hrest⟩ := elementsObey_cons.1 hfits
    obtain ⟨hf', hfields', hrest'⟩ := elementsObey_cons.1 hfits'
    obtain ⟨-, hinside, hbehind⟩ := elementsObey_cons.1 hdelimited
    obtain ⟨body, tail, hbody, htail, rfl⟩ := toBytes_array_cons_eq_ok_iff.1 hbytes
    obtain ⟨body', tail', hbody', htail', heq⟩ := toBytes_array_cons_eq_ok_iff.1 hbytes'
    obtain ⟨rfl, hbodies⟩ := hregistry.eq_of_append hf.mem
      (hregistry.object_serialized f hf.mem hf.kind) hf'.mem
      (hregistry.object_serialized f' hf'.mem hf'.kind) heq
    obtain ⟨rfl, rfl⟩ :=
      eq_of_toBytesFields hregistry fields hfields hfields' hinside hbody hbody' hbodies
    rw [eq_of_toBytesElements hregistry elements hrest hrest' hbehind htail htail']
end

end Value

/-- Objects that are written with the same bytes are the same if the arrays in one of them stand
behind their lengths. -/
theorem Object.eq_of_toBytes_of_delimited {registry : Registry} (hregistry : registry.Regular)
    {fields fields' : Object} (hfits : Obeys (.fits registry) fields)
    (hfits' : Obeys (.fits registry) fields') (hdelimited : Obeys .delimited fields)
    {bytes : List UInt8} (hbytes : fields.toBytes = .ok bytes)
    (hbytes' : fields'.toBytes = .ok bytes) : fields = fields' := by
  have hends : bytes ++ [objectEnd] = bytes ++ [objectEnd] := rfl
  exact (Value.eq_of_toBytesFields hregistry fields hfits hfits' hdelimited hbytes hbytes' hends).1

end FieldWire
