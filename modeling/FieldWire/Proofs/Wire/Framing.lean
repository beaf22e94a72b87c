import FieldWire.Proofs.Wire.Reading
import FieldWire.Wire.Reader
import Mathlib.Tactic.SplitIfs

/-!
# Headers and lengths have one spelling

A header whose codes fit a byte and are not zero is read from the bytes that it is written with
(`Header.reads_read`), and nothing else is ever read as a header (`Header.yields_read`). Lengths are
the same up to the greatest one that is written (`LengthPrefix.reads_read`); reading goes a little
further than writing does, and says nothing about the spelling there (`LengthPrefix.yields_read`).
-/

namespace FieldWire

variable {depth : Nat}

private theorem toNat_ofNat_of_le {n : Nat} (h : n ≤ 255) : (UInt8.ofNat n).toNat = n := by
  rw [UInt8.toNat_ofNat']
  omega

/-! ### Headers -/

namespace Header

/-- Both codes fit a byte and are not zero. -/
def InRange (h : Header) : Prop :=
  1 ≤ h.typeCode ∧ h.typeCode ≤ 255 ∧ 1 ≤ h.fieldCode ∧ h.fieldCode ≤ 255

theorem length_bytes_pos (h : Header) : 0 < h.bytes.length := by
  rw [length_bytes]
  unfold encodedLength
  split <;> decide

theorem length_bytes_le (h : Header) : h.bytes.length ≤ 3 := by
  rw [length_bytes]
  unfold encodedLength
  split <;> decide

/-- Takes a code whose half of the first byte is given: the half itself, or the byte that a zero
announces. -/
def readCode (half : Nat) (fault : HeaderFault) : Reader Nat :=
  if half = 0 then do
    let code ← Reader.byte
    if code.toNat < 16 then throw (.invalidHeader fault) else return code.toNat
  else return half

theorem read_eq : Header.read = (do
    let first ← Reader.byte
    let typeCode ← readCode (first.toNat / 16) .shortTypeCode
    let fieldCode ← readCode (first.toNat % 16) .shortFieldCode
    return ⟨typeCode, fieldCode⟩) := by
  simp only [Header.read, readCode, bind_assoc, pure_bind, Reader.ite_bind, Reader.throw_bind]

private theorem reads_readCode_half {n : Nat} (fault : HeaderFault) (h : 1 ≤ n) :
    (readCode n fault).Reads depth [] n := by
  rw [readCode, if_neg (by omega)]
  exact .pure n

private theorem reads_readCode_byte {n : Nat} (fault : HeaderFault) (h : 16 ≤ n) (h' : n ≤ 255) :
    (readCode 0 fault).Reads depth [UInt8.ofNat n] n := by
  rw [readCode, if_pos rfl]
  refine (Reader.Reads.byte _).bind_nil ?_
  rw [toNat_ofNat_of_le h', if_neg (by omega)]
  exact .pure n

/-- A header is read from the bytes that it is written with. -/
theorem reads_read {h : Header} (hh : h.InRange) : Header.read.Reads depth h.bytes h := by
  obtain ⟨ht, ht', hf, hf'⟩ := hh
  rw [read_eq, bytes]
  by_cases htype : h.typeCode < 16 <;> by_cases hfield : h.fieldCode < 16
  · -- both codes in one byte
    rw [if_pos htype, if_pos hfield]
    refine (Reader.Reads.byte _).bind_nil ?_
    rw [toNat_ofNat_of_le (by omega),
      show (16 * h.typeCode + h.fieldCode) / 16 = h.typeCode by omega,
      show (16 * h.typeCode + h.fieldCode) % 16 = h.fieldCode by omega]
    exact (reads_readCode_half _ ht).nil_bind ((reads_readCode_half _ hf).nil_bind (.pure h))
  · -- the code of the field behind
    rw [if_pos htype, if_neg hfield]
    refine (Reader.Reads.byte _).bind (v := [UInt8.ofNat h.fieldCode]) ?_
    rw [toNat_ofNat_of_le (by omega), show 16 * h.typeCode / 16 = h.typeCode by omega,
      show 16 * h.typeCode % 16 = 0 by omega]
    exact (reads_readCode_half _ ht).nil_bind
      ((reads_readCode_byte _ (by omega) hf').bind_nil (.pure h))
  · -- the code of the kind behind
    rw [if_neg htype, if_pos hfield]
    refine (Reader.Reads.byte _).bind (v := [UInt8.ofNat h.typeCode]) ?_
    rw [toNat_ofNat_of_le (by omega), show h.fieldCode / 16 = 0 by omega,
      show h.fieldCode % 16 = h.fieldCode by omega]
    exact (reads_readCode_byte _ (by omega) ht').bind_nil
      ((reads_readCode_half _ hf).nil_bind (.pure h))
  · -- both codes behind
    rw [if_neg htype, if_neg hfield]
    refine (Reader.Reads.byte _).bind (v := [UInt8.ofNat h.typeCode, UInt8.ofNat h.fieldCode]) ?_
    exact (reads_readCode_byte _ (by omega) ht').bind
      ((reads_readCode_byte _ (by omega) hf').bind_nil (.pure h))

private theorem yields_readCode (half : Nat) (fault : HeaderFault) :
    (readCode half fault).Yields depth fun taken n =>
      (half ≠ 0 ∧ n = half ∧ taken = []) ∨
        (half = 0 ∧ 16 ≤ n ∧ n ≤ 255 ∧ taken = [UInt8.ofNat n]) := by
  unfold readCode
  split
  · next hzero =>
    refine Reader.Yields.byte.bind ?_
    rintro _ code rfl
    have hlt := code.toNat_lt
    split
    · exact .throw _
    · exact .pure (.inr ⟨hzero, by omega, by omega, by simp⟩)
  · next hzero => exact .pure (.inl ⟨hzero, rfl, rfl⟩)

/-- Whatever is read as a header is what the header is written with. -/
theorem yields_read : Header.read.Yields depth fun taken h => taken = h.bytes ∧ h.InRange := by
  rw [read_eq]
  refine Reader.Yields.byte.bind ?_
  rintro _ first rfl
  have hlt := first.toNat_lt
  refine (yields_readCode _ _).bind fun u typeCode htype => ?_
  refine (yields_readCode _ _).bind fun v fieldCode hfield => ?_
  refine .pure ?_
  obtain ⟨hhigh, rfl, rfl⟩ | ⟨hhigh, ht, ht', rfl⟩ := htype <;>
    obtain ⟨hlow, rfl, rfl⟩ | ⟨hlow, hf, hf', rfl⟩ := hfield
  · refine ⟨?_, by simp only [InRange]; omega⟩
    rw [bytes, if_pos (by simp only; omega), if_pos (by simp only; omega)]
    have hfirst : 16 * (first.toNat / 16) + first.toNat % 16 = first.toNat := by omega
    simp [hfirst]
  · refine ⟨?_, by simp only [InRange]; omega⟩
    rw [bytes, if_pos (by simp only; omega), if_neg (by simp only; omega)]
    have hfirst : 16 * (first.toNat / 16) = first.toNat := by omega
    simp [hfirst]
  · refine ⟨?_, by simp only [InRange]; omega⟩
    rw [bytes, if_neg (by simp only; omega), if_pos (by simp only; omega)]
    have hfirst : first.toNat % 16 = first.toNat := by omega
    simp [hfirst]
  · refine ⟨?_, by simp only [InRange]; omega⟩
    rw [bytes, if_neg (by simp only; omega), if_neg (by simp only; omega)]
    have hfirst : first = 0 := by
      apply UInt8.toNat_inj.1
      simp only [UInt8.toNat_zero]
      omega
    simp [hfirst]

end Header

/-! ### Lengths -/

namespace LengthPrefix

/-- The number of bytes of a length. -/
def width (n : Nat) : Nat := if n ≤ maxSingle then 1 else if n ≤ maxDouble then 2 else 3

/-- Exactly the lengths up to the greatest one have bytes. -/
theorem bytes_isOk_iff {n : Nat} : (∃ head, bytes n = .ok head) ↔ n ≤ maxLength := by
  unfold bytes maxSingle maxDouble maxLength
  split_ifs <;> simp <;> omega

theorem length_of_bytes {n : Nat} {head : List UInt8} (h : bytes n = .ok head) :
    head.length = width n := by
  unfold bytes at h
  unfold width
  split_ifs at h ⊢ <;> cases h <;> rfl

/-- A length is read from the bytes that it is written with. -/
theorem reads_read {n : Nat} {head : List UInt8} (h : bytes n = .ok head) :
    LengthPrefix.read.Reads depth head n := by
  unfold bytes maxSingle maxDouble maxLength at h
  unfold LengthPrefix.read
  split_ifs at h with hsingle hdouble hmax
  · cases h
    refine (Reader.Reads.byte _).bind_nil ?_
    simp only [toNat_ofNat_of_le (show n ≤ 255 by omega), if_pos hsingle]
    exact .pure n
  · cases h
    refine (Reader.Reads.byte _).bind (v := [UInt8.ofNat ((n - 193) % 256)]) ?_
    have hfirst : (UInt8.ofNat (193 + (n - 193) / 256)).toNat = 193 + (n - 193) / 256 :=
      toNat_ofNat_of_le (by omega)
    have hvalue : 193 + (193 + (n - 193) / 256 - 193) * 256 + (n - 193) % 256 = n := by omega
    simp only [hfirst, if_neg (show ¬193 + (n - 193) / 256 ≤ 192 by omega),
      if_pos (show 193 + (n - 193) / 256 ≤ 240 by omega)]
    refine (Reader.Reads.byte _).bind_nil ?_
    rw [toNat_ofNat_of_le (by omega), hvalue]
    exact .pure n
  · cases h
    refine (Reader.Reads.byte _).bind
      (v := [UInt8.ofNat ((n - 12481) / 256 % 256), UInt8.ofNat ((n - 12481) % 256)]) ?_
    have hfirst : (UInt8.ofNat (241 + (n - 12481) / 65536)).toNat = 241 + (n - 12481) / 65536 :=
      toNat_ofNat_of_le (by omega)
    have hvalue : 12481 + (241 + (n - 12481) / 65536 - 241) * 65536 +
        (n - 12481) / 256 % 256 * 256 + (n - 12481) % 256 = n := by omega
    simp only [hfirst, if_neg (show ¬241 + (n - 12481) / 65536 ≤ 192 by omega),
      if_neg (show ¬241 + (n - 12481) / 65536 ≤ 240 by omega),
      if_pos (show 241 + (n - 12481) / 65536 ≤ 254 by omega)]
    refine (Reader.Reads.byte _).bind (v := [UInt8.ofNat ((n - 12481) % 256)]) ?_
    refine (Reader.Reads.byte _).bind_nil ?_
    rw [toNat_ofNat_of_le (by omega), toNat_ofNat_of_le (by omega), hvalue]
    exact .pure n

/-- What is read as a length has as many bytes as the length is written with, and these very bytes
if it can be written. -/
theorem yields_read : LengthPrefix.read.Yields depth fun taken n =>
    taken.length = width n ∧ (n ≤ maxLength → bytes n = .ok taken) := by
  unfold LengthPrefix.read
  refine Reader.Yields.byte.bind ?_
  rintro _ first rfl
  have hfirst := first.toNat_lt
  dsimp only
  split_ifs with hsingle hdouble htriple
  · refine .pure ⟨?_, fun _ => ?_⟩
    · simp [width, maxSingle, hsingle]
    · simp [bytes, maxSingle, hsingle]
  · refine Reader.Yields.byte.bind ?_
    rintro _ second rfl
    have hsecond := second.toNat_lt
    have hlow : ¬193 + (first.toNat - 193) * 256 + second.toNat ≤ 192 := by omega
    have hhigh : 193 + (first.toNat - 193) * 256 + second.toNat ≤ 12480 := by omega
    have hquot : 193 + (193 + (first.toNat - 193) * 256 + second.toNat - 193) / 256 =
        first.toNat := by omega
    have hrem : (193 + (first.toNat - 193) * 256 + second.toNat - 193) % 256 =
        second.toNat := by omega
    refine .pure ⟨?_, fun _ => ?_⟩
    · simp [width, maxSingle, maxDouble, hlow, hhigh]
    · simp only [bytes, maxSingle, maxDouble, if_neg hlow, if_pos hhigh, hquot, hrem,
        UInt8.ofNat_toNat]
      rfl
  · refine Reader.Yields.byte.bind ?_
    rintro _ second rfl
    refine Reader.Yields.byte.bind ?_
    rintro _ third rfl
    have hsecond := second.toNat_lt
    have hthird := third.toNat_lt
    have hlow : ¬12481 + (first.toNat - 241) * 65536 + second.toNat * 256 + third.toNat ≤ 192 := by
      omega
    have hmiddle :
        ¬12481 + (first.toNat - 241) * 65536 + second.toNat * 256 + third.toNat ≤ 12480 := by
      omega
    refine .pure ⟨?_, fun hmax => ?_⟩
    · simp [width, maxSingle, maxDouble, hlow, hmiddle]
    · have hfirst' : 241 + (12481 + (first.toNat - 241) * 65536 + second.toNat * 256 +
          third.toNat - 12481) / 65536 = first.toNat := by omega
      have hsecond' : (12481 + (first.toNat - 241) * 65536 + second.toNat * 256 +
          third.toNat - 12481) / 256 % 256 = second.toNat := by omega
      have hthird' : (12481 + (first.toNat - 241) * 65536 + second.toNat * 256 +
          third.toNat - 12481) % 256 = third.toNat := by omega
      simp only [bytes, maxSingle, maxDouble, if_neg hlow, if_neg hmiddle, if_pos hmax, hfirst',
        hsecond', hthird', UInt8.ofNat_toNat]
      rfl
  · exact .throw _

end LengthPrefix

end FieldWire
