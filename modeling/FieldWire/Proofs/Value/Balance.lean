import FieldWire.Proofs.Value.ReadBack

/-!
# Openers and closers

Written objects can be taken apart without knowing what they hold: the next header tells whether an
object or an array opens, whether one closes, or which leaf comes. The *balance* of a byte string is
the number of openers in it less the number of closers, and a byte string has one balance at most
(`Balance.unique`).

What is written for an object is balanced, except that an element in the field of the array end
marker has two closers and no opener (`Value.balance_of_toBytes`). So the bytes tell how many such
elements there are, and whether there are any (`Object.unmarked_iff_of_toBytes`). That settles when
different objects can be written with the same bytes: only when both of them have such elements
(`Object.eq_of_toBytes`).
-/

namespace FieldWire

/-! ### Balances -/

/-- Takes what stands between the header of a field and the next header, and yields what the field
adds to the balance. -/
def Field.weigh (registry : Registry) (f : Field) : Reader Int :=
  if f.isMarker then return -1
  else if f.kind = .object then return 1
  else if f.kind = .array then
    if f.variableLength then do
      let _ ← LengthPrefix.read
      return 1
    else return 1
  else do
    let _ ← Value.readInField registry 0 0 f
    return 0

/-- Takes an opener, a closer or a leaf in its field, and yields what it adds to the balance. -/
def Registry.readToken (registry : Registry) : Reader Int := do
  (← registry.readField).weigh registry

/-- The bytes can be taken apart, and have so many more openers than closers. -/
inductive Balance (registry : Registry) : List UInt8 → Int → Prop
  | nil : Balance registry [] 0
  | token {u rest : List UInt8} {w n : Int} (hread : registry.readToken.Reads 0 u w)
    (hne : u ≠ []) (hrest : Balance registry rest n) : Balance registry (u ++ rest) (w + n)

namespace Balance

variable {registry : Registry} {u v : List UInt8} {m n : Int}

theorem single {w : Int} (hread : registry.readToken.Reads 0 u w) (hne : u ≠ []) :
    Balance registry u w := by
  have h := Balance.token hread hne .nil
  rwa [List.append_nil, Int.add_zero] at h

theorem append (hu : Balance registry u m) (hv : Balance registry v n) :
    Balance registry (u ++ v) (m + n) := by
  induction hu with
  | nil => rwa [List.nil_append, Int.zero_add]
  | token hread hne _ ih =>
    rw [List.append_assoc, Int.add_assoc]
    exact .token hread hne ih

/-- A byte string has one balance, because reading takes it apart in one way. -/
theorem unique {bytes : List UInt8} (hm : Balance registry bytes m)
    (hn : Balance registry bytes n) : m = n := by
  induction hm generalizing n with
  | nil =>
    generalize hbytes : ([] : List UInt8) = bytes at hn
    cases hn with
    | nil => rfl
    | token _ hne _ => exact absurd (List.append_eq_nil_iff.1 hbytes.symm).1 hne
  | @token u rest w k hread hne _ ih =>
    generalize hbytes : u ++ rest = bytes at hn
    cases hn with
    | nil => exact absurd (List.append_eq_nil_iff.1 hbytes).1 hne
    | @token u' rest' w' k' hread' _ hrest' =>
      obtain ⟨rfl, rfl⟩ := hread.unique hread' hbytes
      rw [ih hrest']

end Balance

/-! ### Elements in the field of the array end marker -/

namespace Value

mutual
/-- The number of elements in the value that are wrapped in the field of the array end marker. -/
def marks : Value → Nat
  | .object fields => marksFields fields
  | .array elements => marksElements elements
  | _ => 0

/-- The number of such elements in the values of fields. -/
def marksFields : List (Field × Value) → Nat
  | [] => 0
  | (_, v) :: rest => marks v + marksFields rest

/-- The number of such elements among the elements and in them. -/
def marksElements : List (Field × List (Field × Value)) → Nat
  | [] => 0
  | (f, fields) :: rest =>
    (if f.name = arrayEndName then 1 else 0) + (marksFields fields + marksElements rest)
end

theorem marks_of_isLeaf {v : Value} (h : v.IsLeaf) : v.marks = 0 := by
  cases v
  case object => exact absurd rfl h.1
  case array => exact absurd rfl h.2
  all_goals rw [marks] <;> nofun

mutual
theorem marks_eq_zero_iff : (v : Value) → (v.marks = 0 ↔ v.Obeys .unmarked)
  | .object fields => by
    rw [marks, obeys_object]
    exact marksFields_eq_zero_iff fields
  | .array elements => by
    rw [marks, obeys_array]
    exact marksElements_eq_zero_iff elements
  | .uint8 _ | .uint16 _ | .uint32 _ | .uint64 _ | .hash128 _ | .hash160 _ | .hash256 _
  | .account _ | .blob _ | .amount _ | .currency _ | .issue _ | .vector256 _ | .pathSet _ =>
    iff_of_true (marks_of_isLeaf ⟨nofun, nofun⟩) (obeys_of_isLeaf ⟨nofun, nofun⟩)

/-- An object without such elements is unmarked. -/
theorem marksFields_eq_zero_iff :
    (fields : List (Field × Value)) → (marksFields fields = 0 ↔ Object.Obeys .unmarked fields)
  | [] => by simp [marksFields]
  | (f, v) :: rest => by
    rw [marksFields, Nat.add_eq_zero_iff, marks_eq_zero_iff v, marksFields_eq_zero_iff rest,
      Object.obeys_cons]
    exact (and_iff_right trivial).symm

theorem marksElements_eq_zero_iff : (elements : List (Field × List (Field × Value))) →
    (marksElements elements = 0 ↔ ElementsObey .unmarked elements)
  | [] => by simp [marksElements]
  | (f, fields) :: rest => by
    rw [marksElements, Nat.add_eq_zero_iff, Nat.add_eq_zero_iff, marksFields_eq_zero_iff fields,
      marksElements_eq_zero_iff rest, elementsObey_cons]
    refine and_congr_left fun _ => ?_
    split
    · next hname => exact iff_of_false Nat.one_ne_zero fun hne => hne hname
    · next hname => exact iff_of_true rfl hname
end

end Value

/-! ### The balance of an object -/

namespace Registry.Regular

variable {registry : Registry} {f : Field}

/-- A header and what belongs to it are a token. -/
private theorem balance_of_weigh (h : registry.Regular) (hf : f ∈ registry.fields)
    (hs : f.serialized = true) {u : List UInt8} {w : Int}
    (hweigh : (f.weigh registry).Reads 0 u w) : Balance registry (f.header.bytes ++ u) w := by
  refine .single ((h.accepted.wellFormed.reads_readField hf hs).bind hweigh) fun hnil => ?_
  have hpos := f.header.length_bytes_pos
  rw [(List.append_eq_nil_iff.1 hnil).1, List.length_nil] at hpos
  omega

/-- The header of an end marker closes. -/
private theorem balance_marker (h : registry.Regular) (hf : f ∈ registry.fields)
    (hmarker : f.isMarker = true) : Balance registry f.header.bytes (-1) := by
  have hweigh : (f.weigh registry).Reads 0 [] (-1) := by
    rw [Field.weigh, if_pos hmarker]
    exact .pure _
  have hbalance := h.balance_of_weigh hf (h.marker_serialized f hf hmarker) hweigh
  rwa [List.append_nil] at hbalance

private theorem balance_objectEnd (h : registry.Regular) : Balance registry [objectEnd] (-1) := by
  obtain ⟨f, hf, hname, hbytes⟩ := h.accepted.wellFormed.objectEnd
  rw [← hbytes]
  exact h.balance_marker hf (by rw [Field.isMarker, hname]; rfl)

private theorem balance_arrayEnd (h : registry.Regular) : Balance registry [arrayEnd] (-1) := by
  obtain ⟨f, hf, hname, hbytes⟩ := h.accepted.wellFormed.arrayEnd
  rw [← hbytes]
  exact h.balance_marker hf (by rw [Field.isMarker, hname]; rfl)

/-- The header of an object opens. -/
private theorem balance_object (h : registry.Regular) (hf : f ∈ registry.fields)
    (hmarker : f.isMarker = false) (hkind : f.kind = .object) :
    Balance registry f.header.bytes 1 := by
  have hweigh : (f.weigh registry).Reads 0 [] 1 := by
    rw [Field.weigh, hmarker, if_neg Bool.false_ne_true, if_pos hkind]
    exact .pure _
  have hbalance := h.balance_of_weigh hf (h.object_serialized f hf hkind) hweigh
  rwa [List.append_nil] at hbalance

/-- The header of an array, with its length if it has one, opens. -/
private theorem balance_array (h : registry.Regular) {v : Value} (hfits : registry.Fits f v)
    (hkind : f.kind = .array) {inner framed : List UInt8} {n : Int}
    (hinner : Balance registry inner n) (hframed : f.frame inner = .ok framed) :
    Balance registry (f.header.bytes ++ framed) (1 + n) := by
  cases hlength : f.variableLength with
  | false =>
    rw [f.frame_of_fixedLength hlength] at hframed
    cases hframed
    have hweigh : (f.weigh registry).Reads 0 [] 1 := by
      rw [Field.weigh, hfits.not_marker, if_neg Bool.false_ne_true, hkind, if_neg (by decide),
        if_pos rfl, hlength, if_neg Bool.false_ne_true]
      exact .pure _
    have hbalance := h.balance_of_weigh hfits.mem hfits.serialized hweigh
    rw [List.append_nil] at hbalance
    exact hbalance.append hinner
  | true =>
    rw [f.frame_of_variableLength hlength, Writer.prefixed, map_eq_ok_iff] at hframed
    obtain ⟨head, hhead, rfl⟩ := hframed
    have hweigh : (f.weigh registry).Reads 0 head 1 := by
      rw [Field.weigh, hfits.not_marker, if_neg Bool.false_ne_true, hkind, if_neg (by decide),
        if_pos rfl, if_pos hlength]
      exact (LengthPrefix.reads_read hhead).bind_nil (.pure _)
    rw [← List.append_assoc]
    exact (h.balance_of_weigh hfits.mem hfits.serialized hweigh).append hinner

/-- A leaf in its field neither opens nor closes. -/
private theorem balance_leaf (h : registry.Regular) {v : Value} (hfits : registry.Fits f v)
    (hleaf : v.IsLeaf) {inner framed : List UInt8} (hinner : v.toBytes = .ok inner)
    (hframed : f.frame inner = .ok framed) :
    Balance registry (f.header.bytes ++ (framed ++ f.closing)) 0 := by
  refine h.balance_of_weigh hfits.mem hfits.serialized ?_
  rw [Field.weigh, hfits.not_marker, if_neg Bool.false_ne_true, ← hfits.kind, if_neg hleaf.1,
    if_neg hleaf.2]
  exact (Value.reads_readInField_leaf hleaf hfits (h.isMeasured hfits.mem) hinner hframed
    0).bind_nil (.pure _)

end Registry.Regular

namespace Value

variable {registry : Registry}

mutual
/-- A value in its field is balanced but for marked elements. -/
private theorem balance_of_frame (hregistry : registry.Regular) : (v : Value) → {f : Field} →
    {inner framed : List UInt8} → registry.Fits f v → v.Obeys (.fits registry) →
    v.toBytes = .ok inner → f.frame inner = .ok framed →
      Balance registry (f.header.bytes ++ (framed ++ f.closing)) (-2 * v.marks)
  | .object fields, f, inner, framed, hfits, hv, hinner, hframed => by
    have hkind : f.kind = .object := hfits.kind.symm
    rw [f.frame_of_fixedLength (hregistry.object_fixedLength f hfits.mem hkind)] at hframed
    cases hframed
    rw [toBytes_object] at hinner
    have hbody := balance_of_toBytes hregistry fields (obeys_object.1 hv) hinner
    rw [closing_of_object hkind, marks]
    have hbalance := (hregistry.balance_object hfits.mem hfits.not_marker hkind).append
      (hbody.append hregistry.balance_objectEnd)
    convert hbalance using 1
    omega
  | .array elements, f, inner, framed, hfits, hv, hinner, hframed => by
    have hkind : f.kind = .array := hfits.kind.symm
    have hbody := balance_of_toBytesElements hregistry elements (obeys_array.1 hv) hinner
    rw [closing_of_not_object (hkind ▸ nofun), List.append_nil, marks]
    convert hregistry.balance_array hfits hkind hbody hframed using 1
    omega
  | .uint8 _, _, _, _, hfits, _, hinner, hframed | .uint16 _, _, _, _, hfits, _, hinner, hframed
  | .uint32 _, _, _, _, hfits, _, hinner, hframed | .uint64 _, _, _, _, hfits, _, hinner, hframed
  | .hash128 _, _, _, _, hfits, _, hinner, hframed | .hash160 _, _, _, _, hfits, _, hinner, hframed
  | .hash256 _, _, _, _, hfits, _, hinner, hframed | .account _, _, _, _, hfits, _, hinner, hframed
  | .blob _, _, _, _, hfits, _, hinner, hframed | .amount _, _, _, _, hfits, _, hinner, hframed
  | .currency _, _, _, _, hfits, _, hinner, hframed | .issue _, _, _, _, hfits, _, hinner, hframed
  | .vector256 _, _, _, _, hfits, _, hinner, hframed
  | .pathSet _, _, _, _, hfits, _, hinner, hframed =>
    hregistry.balance_leaf hfits (by exact ⟨nofun, nofun⟩) hinner hframed

/-- An object is balanced but for marked elements, each of which has two closers and no opener. -/
theorem balance_of_toBytes (hregistry : registry.Regular) : (fields : List (Field × Value)) →
    {bytes : List UInt8} → Object.Obeys (.fits registry) fields →
    Object.toBytes fields = .ok bytes → Balance registry bytes (-2 * marksFields fields)
  | [], bytes, _, hbytes => by
    rw [Object.toBytes_nil] at hbytes
    cases hbytes
    exact .nil
  | (f, v) :: rest, bytes, hfits, hbytes => by
    obtain ⟨hf, hv, hrest⟩ := Object.obeys_cons.1 hfits
    obtain ⟨inner, framed, tail, hinner, hframed, htail, rfl⟩ :=
      Object.toBytes_cons_eq_ok_iff.1 hbytes
    have hfirst := balance_of_frame hregistry v hf hv hinner hframed
    have hbalance := hfirst.append (balance_of_toBytes hregistry rest hrest htail)
    simp only [List.append_assoc] at hbalance
    rw [marksFields]
    convert hbalance using 1
    omega

/-- Elements and the end marker of their array close once, but for marked elements. -/
theorem balance_of_toBytesElements (hregistry : registry.Regular) :
    (elements : List (Field × List (Field × Value))) → {bytes : List UInt8} →
    ElementsObey (.fits registry) elements → (array elements).toBytes = .ok bytes →
      Balance registry bytes (-1 - 2 * marksElements elements)
  | [], bytes, _, hbytes => by
    rw [toBytes_array_nil] at hbytes
    cases hbytes
    exact hregistry.balance_arrayEnd
  | (f, fields) :: rest, bytes, hfits, hbytes => by
    obtain ⟨hf, hfields, hrest⟩ := elementsObey_cons.1 hfits
    obtain ⟨body, tail, hbody, htail, rfl⟩ := toBytes_array_cons_eq_ok_iff.1 hbytes
    -- the header of the element decides: it opens, or it is that of the end marker and closes
    have hinner := (balance_of_toBytes hregistry fields hfields hbody).append
      (hregistry.balance_objectEnd.append (balance_of_toBytesElements hregistry rest hrest htail))
    rw [List.singleton_append] at hinner
    rw [marksElements]
    by_cases hname : f.name = arrayEndName
    · have hmarker : f.isMarker = true := by simp [Field.isMarker, hname]
      convert (hregistry.balance_marker hf.mem hmarker).append hinner using 1
      rw [if_pos hname]
      omega
    · have hmarker : f.isMarker = false := by simp [Field.isMarker, hf.name_ne, hname]
      convert (hregistry.balance_object hf.mem hmarker hf.kind).append hinner using 1
      rw [if_neg hname]
      omega
end

end Value

namespace Object

variable {registry : Registry} {fields fields' : Object} {bytes : List UInt8}

/-- The bytes of an object tell whether an element in it is wrapped in the field of the array end
marker. -/
theorem unmarked_iff_of_toBytes (hregistry : registry.Regular)
    (hfits : Obeys (.fits registry) fields) (hfits' : Obeys (.fits registry) fields')
    (hbytes : fields.toBytes = .ok bytes) (hbytes' : fields'.toBytes = .ok bytes) :
    Obeys .unmarked fields ↔ Obeys .unmarked fields' := by
  have hbalance := (Value.balance_of_toBytes hregistry fields hfits hbytes).unique
    (Value.balance_of_toBytes hregistry fields' hfits' hbytes')
  rw [← Value.marksFields_eq_zero_iff, ← Value.marksFields_eq_zero_iff]
  omega

/-- Objects that are written with the same bytes are the same, unless both have elements that are
wrapped in the field of the array end marker. -/
theorem eq_of_toBytes (hregistry : registry.Regular)
    (hfits : Obeys (.fits registry) fields) (hfits' : Obeys (.fits registry) fields')
    (hbytes : fields.toBytes = .ok bytes) (hbytes' : fields'.toBytes = .ok bytes)
    (hunmarked : Obeys .unmarked fields ∨ Obeys .unmarked fields') : fields = fields' := by
  have hiff := unmarked_iff_of_toBytes hregistry hfits hfits' hbytes hbytes'
  have hboth : Obeys .unmarked fields ∧ Obeys .unmarked fields' := by
    rcases hunmarked with h | h
    · exact ⟨h, hiff.1 h⟩
    · exact ⟨hiff.2 h, h⟩
  -- nothing bounds the levels of the objects, but a limit that allows both always exists
  have hread := ofBytes_of_toBytes hregistry hfits hboth.1
    (Nat.le_max_left fields.nesting fields'.nesting) hbytes
  have hread' := ofBytes_of_toBytes hregistry hfits' hboth.2
    (Nat.le_max_right fields.nesting fields'.nesting) hbytes'
  exact Except.ok.inj (hread.symm.trans hread')

end Object

end FieldWire
