import FieldWire.Proofs.Registry.Regular
import FieldWire.Wire.Writer
import Mathlib.Data.Nat.PSub

/-!
# One spelling on the wire

Lengths and headers stand in front of everything else, and each of them has one spelling. What a
reader does with written bytes (`Reader.Reads`) and what it makes of any bytes (`Reader.Yields`)
are two halves of one equivalence: a length or a header is read exactly where its own bytes come
next, and the reader stops right behind them (`Cursor.Passes`).

* **`LengthPrefix.lengths_exact`** is about lengths. They are written up to 918744, in steps that
  stay within a byte: no difference is negative and no number or sum exceeds 255
  (`LengthPrefix.checked?_eq`). Reading goes on to 929984, and of that nothing is said here.
* **`Registry.Accepted.headers_exact`** is about headers and the fields that they stand for. It
  needs a registry that was accepted, because loading a schema is what keeps the codes of written
  fields from 1 to 255 and their headers distinct. A code of zero would announce a byte of its own.
-/

namespace FieldWire

/-- The bytes come next at the first cursor, and the second one stands right behind them. -/
structure Cursor.Passes (c : Cursor) (bytes : List UInt8) (d : Cursor) : Prop where
  /-- The bytes come first, and what follows them is left. -/
  rest_eq : c.rest = bytes ++ d.rest
  /-- They are counted. -/
  position_eq : d.position = c.position + bytes.length
  /-- No object or array is opened or closed. -/
  depth_eq : d.depth = c.depth

variable {c d : Cursor}

namespace Reader

variable {α : Type} {x : Reader α} {a : α}

theorem Reads.of_passes {bytes : List UInt8} (h : x.Reads c.depth bytes a)
    (hpasses : c.Passes bytes d) : x c = .ok a d := by
  obtain ⟨hrest, hposition, hdepth⟩ := hpasses
  have hstart : c = ⟨bytes ++ d.rest, c.position, c.depth⟩ := by rw [← hrest]
  rw [hstart, h, ← hposition, ← hdepth]

theorem Yields.passes {P : List UInt8 → α → Prop} (h : x.Yields c.depth P) (hok : x c = .ok a d) :
    ∃ taken, c.Passes taken d ∧ P taken a := by
  obtain ⟨taken, hrest, hposition, hdepth, hP⟩ := h c a d rfl hok
  exact ⟨taken, ⟨hrest, hposition, hdepth⟩, hP⟩

end Reader

/-! ### Lengths -/

namespace LengthPrefix

/-- The number as a byte, if it fits one. -/
def byte? (n : Nat) : Option UInt8 := if n ≤ 255 then some (UInt8.ofNat n) else none

/-- The sum of a number and a byte, if it fits one. -/
def sum? (n : Nat) (b : UInt8) : Option UInt8 := byte? (n + b.toNat)

/-- The bytes of a length, computed with a check at every step. There are none if a difference is
negative, or if a number or a sum does not fit a byte. -/
def checked? (n : Nat) : Option (Except Error (List UInt8)) :=
  if n ≤ maxSingle then do
    let first ← byte? n
    return .ok [first]
  else if n ≤ maxDouble then do
    let rest ← n.psub 193
    let first ← sum? 193 (← byte? (rest >>> 8))
    let second ← byte? (rest &&& 0xFF)
    return .ok [first, second]
  else if n ≤ maxLength then do
    let rest ← n.psub 12481
    let first ← sum? 241 (← byte? (rest >>> 16))
    let second ← byte? ((rest >>> 8) &&& 0xFF)
    let third ← byte? (rest &&& 0xFF)
    return .ok [first, second, third]
  else return .error (.lengthOverflow n)

theorem byte?_of_le {n : Nat} (h : n ≤ 255) : byte? n = some (UInt8.ofNat n) := if_pos h

theorem sum?_of_le {m n : Nat} (h : m + n ≤ 255) :
    sum? m (UInt8.ofNat n) = some (UInt8.ofNat (m + n)) := by
  rw [sum?, UInt8.toNat_ofNat_of_lt' (by change n < 256; omega), byte?_of_le h]

/-- No check fails, and the outcome is the one of exact arithmetic. -/
theorem checked?_eq (n : Nat) : checked? n = some (bytes n) := by
  have hrest : ∀ rest base : Nat, (rest + base).psub base = some rest := fun rest base =>
    Nat.psub_eq_some.2 rfl
  have hlow : ∀ m : Nat, m &&& 0xFF = m % 256 := fun m => Nat.and_two_pow_sub_one_eq_mod m 8
  have hshift : ∀ m : Nat, m >>> 8 = m / 256 := fun m => Nat.shiftRight_eq_div_pow m 8
  have hshift' : ∀ m : Nat, m >>> 16 = m / 65536 := fun m => Nat.shiftRight_eq_div_pow m 16
  unfold checked? bytes maxSingle maxDouble maxLength
  split_ifs with hsingle hdouble hmax
  · rw [byte?_of_le (by omega)]
    rfl
  · -- the length as what its base leaves, so that no difference is left to compute
    obtain ⟨rest, rfl⟩ : ∃ rest, n = rest + 193 := ⟨n - 193, by omega⟩
    simp only [hrest, hlow, hshift, Nat.add_sub_cancel, Option.bind_eq_bind, Option.bind_some]
    rw [byte?_of_le (by omega), byte?_of_le (by omega), Option.bind_some, sum?_of_le (by omega)]
    rfl
  · obtain ⟨rest, rfl⟩ : ∃ rest, n = rest + 12481 := ⟨n - 12481, by omega⟩
    simp only [hrest, hlow, hshift, hshift', Nat.add_sub_cancel, Option.bind_eq_bind,
      Option.bind_some]
    rw [byte?_of_le (by omega), byte?_of_le (by omega), byte?_of_le (by omega), Option.bind_some,
      sum?_of_le (by omega)]
    rfl
  · rfl

/-- A length above the greatest one is refused, and the refusal says which it is. -/
theorem bytes_of_maxLength_lt {n : Nat} (h : maxLength < n) :
    bytes n = .error (.lengthOverflow n) := by
  have hmax : 918744 < n := h
  rw [bytes, if_neg (by unfold maxSingle; omega), if_neg (by unfold maxDouble; omega),
    if_neg (Nat.not_le.2 h)]

/-- A length that can be written is read exactly where its bytes come next. -/
theorem read_eq_ok_iff {n : Nat} {head : List UInt8} (h : bytes n = .ok head) :
    LengthPrefix.read c = .ok n d ↔ c.Passes head d := by
  refine ⟨fun hok => ?_, (reads_read h).of_passes⟩
  obtain ⟨taken, hpasses, -, hspelling⟩ := yields_read.passes hok
  have htaken : bytes n = .ok taken := hspelling (bytes_isOk_iff.1 ⟨head, h⟩)
  rw [h] at htaken
  cases htaken
  exact hpasses

/-- **Lengths have one spelling.** No step of computing the bytes of a length leaves its range.
Exactly the lengths up to 918744 are written, as one, two or three bytes behind what the buffer
holds, and a length above is refused with the buffer as it was. A written length is read where its
bytes come next, whatever follows them, and nowhere else. -/
theorem lengths_exact (n : Nat) :
    checked? n = some (bytes n) ∧
    (918744 < n → ∀ buffer,
      Writer.appendOf (bytes n) buffer = .error (.lengthOverflow n) buffer) ∧
    (n ≤ 918744 → ∃ head, bytes n = .ok head ∧
      head.length = (if n ≤ 192 then 1 else if n ≤ 12480 then 2 else 3) ∧
      (∀ buffer, Writer.appendOf (bytes n) buffer = .ok () (buffer ++ head)) ∧
      ∀ c d, LengthPrefix.read c = .ok n d ↔ c.Passes head d) := by
  refine ⟨checked?_eq n, fun h buffer => ?_, fun h => ?_⟩
  · rw [bytes_of_maxLength_lt h]
    rfl
  · obtain ⟨head, hhead⟩ := bytes_isOk_iff.2 h
    refine ⟨head, hhead, length_of_bytes hhead, fun buffer => ?_, fun c d => read_eq_ok_iff hhead⟩
    rw [hhead]
    rfl

/-- The last length of two bytes, and the first one that is too great. -/
theorem lengths_exact_edges :
    12480 ≤ 918744 ∧ Writer.appendOf (bytes 12480) #[7] = .ok () #[7, 240, 255] ∧
      LengthPrefix.read ⟨[240, 255, 9], 0, 0⟩ = .ok 12480 ⟨[9], 2, 0⟩ ∧
      918744 < 918745 ∧
      Writer.appendOf (bytes 918745) #[7] = .error (.lengthOverflow 918745) #[7] := by
  obtain ⟨-, -, hwritten⟩ := lengths_exact 12480
  obtain ⟨head, hhead, -, happend, hread⟩ := hwritten (by decide)
  obtain rfl : [240, 255] = head := Except.ok.inj hhead
  obtain ⟨-, hrefused, -⟩ := lengths_exact 918745
  exact ⟨by decide, happend _, (hread _ _).2 ⟨rfl, rfl, rfl⟩, by decide, hrefused (by decide) _⟩

end LengthPrefix

/-! ### Headers -/

/-- A header is read exactly where its bytes come next, if both codes can be those of a field. -/
theorem Header.read_eq_ok_iff {h : Header} :
    Header.read c = .ok h d ↔ h.InRange ∧ c.Passes h.bytes d := by
  constructor
  · intro hok
    obtain ⟨_, hpasses, rfl, hrange⟩ := yields_read.passes hok
    exact ⟨hrange, hpasses⟩
  · rintro ⟨hrange, hpasses⟩
    exact (reads_read hrange).of_passes hpasses

namespace Registry

/-- A field is read exactly where the bytes of its header come next, if it is a written one. -/
theorem WellFormed.readField_eq_ok_iff {registry : Registry} (h : registry.WellFormed) {f : Field} :
    registry.readField c = .ok f d ↔
      (f ∈ registry.fields ∧ f.serialized = true) ∧ c.Passes f.header.bytes d := by
  constructor
  · intro hok
    obtain ⟨_, hpasses, rfl, hwritten⟩ := yields_readField.passes hok
    exact ⟨hwritten, hpasses⟩
  · rintro ⟨⟨hf, hs⟩, hpasses⟩
    exact (h.reads_readField hf hs).of_passes hpasses

/-- **Headers lead back to their fields and have one spelling.** A header has as many bytes as its
two codes need. It is read where its bytes come next and nowhere else, and then both codes are from
1 to 255. In an accepted registry, such as every one that the text of a schema loads as, a field is
read where the bytes of its header come next and nowhere else, and then it is a written field of the
registry. -/
theorem Accepted.headers_exact {registry : Registry} (h : registry.Accepted) :
    (∀ header : Header, header.bytes.length = header.encodedLength) ∧
    (∀ c header d, Header.read c = .ok header d ↔ header.InRange ∧ c.Passes header.bytes d) ∧
    ∀ c f d, registry.readField c = .ok f d ↔
      (f ∈ registry.fields ∧ f.serialized = true) ∧ c.Passes f.header.bytes d :=
  ⟨Header.length_bytes, fun _ _ _ => Header.read_eq_ok_iff,
    fun _ _ _ => h.wellFormed.readField_eq_ok_iff⟩

/-- A field of the bundled registry neither of whose codes fits half a byte. -/
def tickSize : Field where
  name := "TickSize"
  kind := .uint8
  header := ⟨16, 16⟩
  variableLength := false
  serialized := true
  signing := true

theorem Accepted.headers_exact_tickSize :
    bundled.Accepted ∧ tickSize ∈ bundled.fields ∧
      bundled.readField ⟨[0x00, 0x10, 0x10, 0x05], 0, 0⟩ = .ok tickSize ⟨[0x05], 3, 0⟩ := by
  have haccepted := regular_bundled.accepted
  have hmem : tickSize ∈ bundled.fields := by
    refine (mem_loadFields_iff (of_load_eq_ok load_bundled).1).2
      ⟨⟨"TickSize", 16, false, true, true, "UInt8"⟩, ?_, rfl⟩
    decide +kernel
  obtain ⟨-, -, hfield⟩ := haccepted.headers_exact
  exact ⟨haccepted, hmem, (hfield _ _ _).2 ⟨⟨hmem, rfl⟩, rfl, rfl, rfl⟩⟩

end Registry

end FieldWire
