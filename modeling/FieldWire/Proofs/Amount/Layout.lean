import FieldWire.Proofs.Amount.Decimal
import Mathlib.Algebra.Ring.Nat

/-!
# The layout of a packed number

A packed number is a word of 64 bits. From the top these are the mark of issued amounts, the sign,
eight bits of exponent and 54 bits of mantissa.

* **Packing.** Each part of a number in normal form fits the bits that are meant for it
  (`IsNormal.isWithin_exponentPart` and its neighbours), so no two parts share a bit
  (`IsWithin.and_eq_zero`) and none is cut off at the top: putting them together in words gives the
  packed form (`IsNormal.toNat_toWord`).
* **Unpacking.** Whether a word can be unpacked is told by its bits (`exists_ofBits_iff`). A word is
  the sum of its sign and its fields (`toNat_eq_fields`), so one with its fields in range is the
  packed form of the number that has them, and packing can be undone; no separate account of
  unpacking is needed.
-/

namespace FieldWire.IssuedValue

/-! ### Bits of a word -/

/-- All bits that are set in the word stand below `high` and not below `low`. -/
def IsWithin (low high : Nat) (word : BitVec 64) : Prop :=
  ∀ place, word.getLsbD place = true → low ≤ place ∧ place < high

/-- A number of some bits fits as many places, wherever it is moved to. -/
theorem isWithin_shiftLeft {n width : Nat} (h : n < 2 ^ width) (low : Nat) :
    IsWithin low (low + width) (BitVec.ofNat 64 n <<< low) := by
  intro place hplace
  rw [BitVec.getLsbD_shiftLeft, BitVec.getLsbD_ofNat] at hplace
  simp only [Bool.and_eq_true, Bool.not_eq_true', decide_eq_false_iff_not] at hplace
  obtain ⟨⟨-, hlow⟩, -, hbit⟩ := hplace
  have hwidth : 2 ^ (place - low) < 2 ^ width := (Nat.ge_two_pow_of_testBit hbit).trans_lt h
  have hlt := (Nat.pow_lt_pow_iff_right (by decide)).1 hwidth
  omega

/-- Nothing is cut off at the top where the places are those of a word. -/
theorem toNat_shiftLeft {n width low : Nat} (h : n < 2 ^ width) (hplaces : low + width ≤ 64) :
    (BitVec.ofNat 64 n <<< low).toNat = n <<< low := by
  have hword : 2 ^ low * 2 ^ width ≤ 2 ^ 64 := by
    rw [← Nat.pow_add]
    exact Nat.pow_le_pow_right (by decide) hplaces
  have hmoved : n * 2 ^ low < 2 ^ 64 := by
    rw [Nat.mul_comm]
    exact (Nat.mul_lt_mul_of_pos_left h (Nat.two_pow_pos low)).trans_le hword
  have hsmall : n < 2 ^ 64 := (Nat.le_mul_of_pos_right n (Nat.two_pow_pos low)).trans_lt hmoved
  rw [BitVec.toNat_shiftLeft, BitVec.toNat_ofNat, Nat.mod_eq_of_lt hsmall, Nat.shiftLeft_eq,
    Nat.mod_eq_of_lt hmoved]

/-- Words with their bits in different places share none. -/
theorem IsWithin.and_eq_zero {low high low' high' : Nat} {first second : BitVec 64}
    (h : IsWithin low high first) (h' : IsWithin low' high' second) (hapart : high' ≤ low) :
    first &&& second = 0 := by
  refine BitVec.eq_of_getLsbD_eq fun place _ => ?_
  rw [BitVec.getLsbD_and, BitVec.ofNat_eq_ofNat, BitVec.getLsbD_zero, Bool.and_eq_false_iff]
  by_contra hboth
  rw [not_or, Bool.not_eq_false, Bool.not_eq_false] at hboth
  have hfirst := h place hboth.1
  have hsecond := h' place hboth.2
  omega

/-- The exponent as it stands in a word. -/
def exponentField (word : BitVec 64) : Nat := (word.extractLsb' exponentShift 8).toNat

/-- The mantissa as it stands in a word. -/
def mantissaField (word : BitVec 64) : Nat := (word.extractLsb' 0 exponentShift).toNat

/-- The word is the packed zero, or it is marked as issued and its fields are in range. -/
def IsCanonical (word : BitVec 64) : Prop :=
  word = 0x8000000000000000#64 ∨ word.getLsbD 63 = true ∧
    (minMantissa ≤ mantissaField word ∧ mantissaField word ≤ maxMantissa) ∧
      1 ≤ exponentField word ∧ exponentField word ≤ 177

instance (word : BitVec 64) : Decidable (IsCanonical word) := inferInstanceAs (Decidable (_ ∨ _))

/-! ### Packing -/

/-- The mark of issued amounts. -/
def markPart : BitVec 64 := 1#64 <<< 63

/-- The sign, which is set for positive numbers. -/
def signPart (v : IssuedValue) : BitVec 64 := if v.negative then 0#64 else 1#64 <<< 62

/-- The exponent in its place. -/
def exponentPart (v : IssuedValue) : BitVec 64 :=
  BitVec.ofInt 64 (v.exponent + exponentBias) <<< exponentShift

/-- The mantissa in its place. -/
def mantissaPart (v : IssuedValue) : BitVec 64 := BitVec.ofNat 64 v.mantissa

/-- Packs a number in words. -/
def toWord (v : IssuedValue) : BitVec 64 :=
  if v.isZero then markPart else markPart ||| v.signPart ||| v.exponentPart ||| v.mantissaPart

variable {v : IssuedValue}

/-- Also zero has no digits and no exponent that would be out of range. -/
private theorem IsNormal.bounds (h : v.IsNormal) :
    v.mantissa ≤ maxMantissa ∧ minExponent ≤ v.exponent ∧ v.exponent ≤ maxExponent := by
  obtain rfl | ⟨-, hmax, hleast, hgreatest⟩ := h
  · decide
  · exact ⟨hmax, hleast, hgreatest⟩

/-- The biased exponent is not negative and fits eight bits. -/
private theorem IsNormal.biased (h : v.IsNormal) :
    0 ≤ v.exponent + exponentBias ∧ (v.exponent + exponentBias).toNat < 2 ^ 8 := by
  obtain ⟨-, hleast, hgreatest⟩ := h.bounds
  unfold minExponent at hleast
  unfold maxExponent at hgreatest
  unfold exponentBias
  omega

private theorem IsNormal.mantissa_lt (h : v.IsNormal) : v.mantissa < 2 ^ 54 :=
  h.bounds.1.trans_lt (by decide)

theorem IsNormal.exponentPart_eq (h : v.IsNormal) : v.exponentPart =
    BitVec.ofNat 64 (v.exponent + exponentBias).toNat <<< exponentShift := by
  rw [exponentPart, ← BitVec.ofInt_natCast, Int.toNat_of_nonneg h.biased.1]

theorem isWithin_markPart : IsWithin 63 64 markPart :=
  isWithin_shiftLeft (show 1 < 2 ^ 1 by decide) 63

theorem isWithin_signPart (v : IssuedValue) : IsWithin 62 63 v.signPart := by
  rw [signPart]
  split
  · exact fun place hplace => by simp at hplace
  · exact isWithin_shiftLeft (show 1 < 2 ^ 1 by decide) 62

theorem IsNormal.isWithin_exponentPart (h : v.IsNormal) : IsWithin 54 62 v.exponentPart := by
  rw [h.exponentPart_eq]
  exact isWithin_shiftLeft h.biased.2 54

theorem IsNormal.isWithin_mantissaPart (h : v.IsNormal) : IsWithin 0 54 v.mantissaPart := by
  have hwithin := isWithin_shiftLeft h.mantissa_lt 0
  rwa [BitVec.shiftLeft_zero] at hwithin

/-- The parts of a packed number share no bit. -/
theorem IsNormal.pairwise_parts (h : v.IsNormal) :
    [markPart, v.signPart, v.exponentPart, v.mantissaPart].Pairwise
      fun first second => first &&& second = 0 := by
  have hmark := isWithin_markPart
  have hsign := isWithin_signPart v
  have hexponent := h.isWithin_exponentPart
  have hmantissa := h.isWithin_mantissaPart
  simp only [List.pairwise_cons, List.mem_cons, List.not_mem_nil, or_false, forall_eq_or_imp,
    forall_eq]
  exact ⟨⟨hmark.and_eq_zero hsign (by decide), hmark.and_eq_zero hexponent (by decide),
      hmark.and_eq_zero hmantissa (by decide)⟩,
    ⟨hsign.and_eq_zero hexponent (by decide), hsign.and_eq_zero hmantissa (by decide)⟩,
    hexponent.and_eq_zero hmantissa (by decide), nofun, .nil⟩

/-- Packing in words is packing. -/
theorem IsNormal.toNat_toWord (h : v.IsNormal) : v.toWord.toNat = v.toBits := by
  have hsign : v.signPart.toNat = if v.negative then 0 else positiveBit := by
    rw [signPart]
    split <;> rfl
  have hexponent : v.exponentPart.toNat =
      (v.exponent + exponentBias).toNat <<< exponentShift := by
    rw [h.exponentPart_eq]
    exact toNat_shiftLeft h.biased.2 (by decide)
  have hmantissa : v.mantissaPart.toNat = v.mantissa := by
    have hplaced := toNat_shiftLeft h.mantissa_lt (show 0 + 54 ≤ 64 by decide)
    rwa [BitVec.shiftLeft_zero, Nat.shiftLeft_zero] at hplaced
  rw [toWord, toBits]
  split
  · rfl
  · rw [BitVec.toNat_or, BitVec.toNat_or, BitVec.toNat_or, hsign, hexponent, hmantissa]
    rfl

/-- The highest bit of a packed number is the mark. -/
theorem IsNormal.testBit_toBits (h : v.IsNormal) : v.toBits.testBit 63 = true := by
  have hissued := issued_toBits h
  rw [Nat.testBit_eq_decide_div_mod_eq, decide_eq_true_eq]
  exact (Nat.mod_two_eq_zero_or_one _).resolve_left hissued

/-! ### Unpacking -/

/-- The number that the fields of a word give. -/
def ofFields (word : BitVec 64) : IssuedValue :=
  ⟨!word.getLsbD 62, mantissaField word, exponentField word - exponentBias⟩

/-- The fields of a word by its number. -/
theorem fields_eq (word : BitVec 64) : mantissaField word = word.toNat % 2 ^ 54 ∧
    exponentField word = word.toNat / 2 ^ 54 % 2 ^ 8 := by
  rw [mantissaField, exponentField, BitVec.extractLsb'_toNat, BitVec.extractLsb'_toNat,
    Nat.shiftRight_zero, Nat.shiftRight_eq_div_pow]
  exact ⟨rfl, rfl⟩

theorem getLsbD_eq (word : BitVec 64) (place : Nat) :
    word.getLsbD place = decide (word.toNat / 2 ^ place % 2 = 1) := by
  rw [← BitVec.testBit_toNat, Nat.testBit_eq_decide_div_mod_eq]

/-- A word with its mark is made up of its sign and its fields. -/
theorem toNat_eq_fields {word : BitVec 64} (hmark : word.getLsbD 63 = true) : word.toNat =
    (if (!word.getLsbD 62) = true then 9223372036854775808 else 13835058055282163712) +
      exponentField word * 18014398509481984 + mantissaField word := by
  obtain ⟨hlow, hmiddle⟩ := fields_eq word
  have hword := word.isLt
  rw [getLsbD_eq, decide_eq_true_eq] at hmark
  rw [hlow, hmiddle]
  cases hsign : word.getLsbD 62 with
  | true =>
    rw [getLsbD_eq, decide_eq_true_eq] at hsign
    simp only [Bool.not_true, Bool.false_eq_true, if_false]
    omega
  | false =>
    rw [getLsbD_eq, decide_eq_false_iff_not] at hsign
    simp only [Bool.not_false, if_true]
    omega

/-- The fields of a packed number are its mantissa and its exponent. -/
theorem IsNormal.fields_of_toBits (h : v.IsNormal) (hsome : v.isZero = false) {word : BitVec 64}
    (hbits : v.toBits = word.toNat) :
    mantissaField word = v.mantissa ∧ (exponentField word : Int) = v.exponent + exponentBias := by
  obtain ⟨hmax, -, hgreatest⟩ := h.bounds
  obtain ⟨hbiased, hbyte⟩ := h.biased
  have hmantissa := h.mantissa_lt
  obtain ⟨hlow, hmiddle⟩ := fields_eq word
  rw [toBits_eq hsome hmax hgreatest] at hbits
  constructor
  · split at hbits <;> omega
  · split at hbits <;> omega

/-- A word with its mark and with fields in range is the packed form of the number that they
give. -/
theorem toBits_ofFields {word : BitVec 64} (hmark : word.getLsbD 63 = true)
    (hmantissa : minMantissa ≤ mantissaField word ∧ mantissaField word ≤ maxMantissa)
    (hexponent : 1 ≤ exponentField word ∧ exponentField word ≤ 177) :
    (ofFields word).IsNormal ∧ (ofFields word).toBits = word.toNat := by
  have hrange : minExponent ≤ (ofFields word).exponent ∧
      (ofFields word).exponent ≤ maxExponent := by
    change minExponent ≤ (exponentField word : Int) - exponentBias ∧
      (exponentField word : Int) - exponentBias ≤ maxExponent
    unfold minExponent maxExponent exponentBias
    omega
  have hnormal : (ofFields word).IsNormal := .inr ⟨hmantissa.1, hmantissa.2, hrange⟩
  refine ⟨hnormal, ?_⟩
  have hsome : (ofFields word).isZero = false := by
    obtain hzero | ⟨hsome, -⟩ := hnormal.cases
    · rw [show mantissaField word = 0 from congrArg mantissa hzero] at hmantissa
      exact absurd hmantissa.1 (by decide)
    · exact hsome
  have hbiased : (((exponentField word : Int) - exponentBias) + exponentBias).toNat =
      exponentField word := by omega
  rw [toBits_eq hsome hmantissa.2 hrange.2, toNat_eq_fields hmark, ofFields, hbiased]

/-- Whether a word can be unpacked is told by its bits. -/
theorem exists_ofBits_iff (word : BitVec 64) :
    (∃ v, ofBits word.toNat = .ok v) ↔ IsCanonical word := by
  constructor
  · rintro ⟨v, hv⟩
    obtain ⟨hbits, hnormal⟩ := toBits_of_ofBits (word.isLt.trans_eq (by decide)) hv
    obtain rfl | ⟨hsome, hmin, hmax, hleast, hgreatest⟩ := hnormal.cases
    · exact .inl (BitVec.eq_of_toNat_eq hbits.symm)
    · obtain ⟨hmantissa, hexponent⟩ := hnormal.fields_of_toBits hsome hbits
      refine .inr ⟨?_, ⟨hmantissa ▸ hmin, hmantissa ▸ hmax⟩, ?_⟩
      · rw [← BitVec.testBit_toNat, ← hbits]
        exact hnormal.testBit_toBits
      · unfold minExponent at hleast
        unfold maxExponent at hgreatest
        unfold exponentBias at hexponent
        omega
  · rintro (rfl | ⟨hmark, hmantissa, hexponent⟩)
    · exact ⟨zero, rfl⟩
    · obtain ⟨hnormal, hbits⟩ := toBits_ofFields hmark hmantissa hexponent
      exact ⟨ofFields word, hbits ▸ ofBits_toBits hnormal⟩

/-! ### The packed form -/

/-- What packing does to a number. -/
structure Packs (v : IssuedValue) : Prop where
  /-- It is done in words. -/
  toNat_toWord : v.toWord.toNat = v.toBits
  /-- The highest bit is set. -/
  mark : v.toBits.testBit 63 = true
  /-- The parts share no bit. -/
  pairwise_parts : [markPart, v.signPart, v.exponentPart, v.mantissaPart].Pairwise
    fun first second => first &&& second = 0
  /-- It can be undone. -/
  ofBits_toBits : ofBits v.toBits = .ok v

/-- **Packing is exact.** What a word unpacks to is in normal form and packed as that word. The words
that can be unpacked are the canonical ones. A number that was read or unpacked is packed in words,
its parts beside each other below the mark, and unpacked to itself. -/
theorem toBits_exact :
    (∀ (word : BitVec 64) (v : IssuedValue), ofBits word.toNat = .ok v →
      v.IsNormal ∧ v.toBits = word.toNat) ∧
    (∀ word : BitVec 64, (∃ v, ofBits word.toNat = .ok v) ↔ IsCanonical word) ∧
    ∀ v : IssuedValue, ((∃ text, ofText text = .ok v) ∨
      ∃ word : BitVec 64, ofBits word.toNat = .ok v) → v.Packs := by
  have hunpack : ∀ (word : BitVec 64) (v : IssuedValue), ofBits word.toNat = .ok v →
      v.IsNormal ∧ v.toBits = word.toNat := fun word v hv =>
    (toBits_of_ofBits (word.isLt.trans_eq (by decide)) hv).symm
  refine ⟨hunpack, exists_ofBits_iff, fun v hv => ?_⟩
  have hnormal : v.IsNormal := by
    obtain ⟨text, htext⟩ | ⟨word, hword⟩ := hv
    · exact isNormal_of_ofText htext
    · exact (hunpack word v hword).1
  exact ⟨hnormal.toNat_toWord, hnormal.testBit_toBits, hnormal.pairwise_parts,
    ofBits_toBits hnormal⟩

theorem toBits_exact_minusEightieth :
    ofBits (0x940470DE4DF82000#64).toNat = .ok ⟨true, 1250000000000000, -17⟩ ∧
    IssuedValue.toBits ⟨true, 1250000000000000, -17⟩ = (0x940470DE4DF82000#64).toNat ∧
    IssuedValue.Packs ⟨true, 1250000000000000, -17⟩ := by
  have hunpack : ofBits (0x940470DE4DF82000#64).toNat = .ok ⟨true, 1250000000000000, -17⟩ := by
    rfl
  obtain ⟨hword, -, hpacks⟩ := toBits_exact
  exact ⟨hunpack, (hword _ _ hunpack).2, hpacks _ (.inr ⟨_, hunpack⟩)⟩

end FieldWire.IssuedValue
