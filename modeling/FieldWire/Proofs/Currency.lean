import FieldWire.Proofs.Asset
import FieldWire.Proofs.Outcome

/-!
# Texts of currencies

Three sorts of texts share one space of twenty bytes: the native code, codes of three characters,
and forty hexadecimal digits, which may be those of a code or of the native asset. The proper
currencies are those that have a text, and each of them has one that it is written as
(`Currency.spellings_exact`).

* A code is never mistaken for another sort of text: a currency in standard form with a code is not
  the native one (`Currency.isNative_standard`), and digits are too many for a code.
* Digits are read pair by pair (`Hex.spells_of_decode`), so zeros come from zeros only
  (`Hex.Spells.eq_replicate`). With the native code this leaves two texts for the native asset
  (`Currency.ofText_eq_native_iff`).
-/

namespace FieldWire

/-! ### Digits in pairs -/

theorem utf8Bytes_injective {first second : String} (h : utf8Bytes first = utf8Bytes second) :
    first = second := by
  rw [← String.toByteArray_inj, ← String.utf8Encode_toList, ← String.utf8Encode_toList]
  exact congrArg List.toByteArray h

namespace Hex

/-- The digits spell the bytes, two digits a byte. -/
inductive Spells : (digits bytes : List UInt8) → Prop where
  /-- No digits for no bytes. -/
  | nil : Spells [] []
  /-- The high and the low half of the first byte, and the digits of the others. -/
  | cons {high low : UInt8} {h l : Nat} {digits bytes : List UInt8}
    (high_eq : digitValue? high = some h) (low_eq : digitValue? low = some l)
    (rest : Spells digits bytes) :
    Spells (high :: low :: digits) (UInt8.ofNat (16 * h + l) :: bytes)

theorem digitValue?_lt {b : UInt8} {n : Nat} (h : digitValue? b = some n) : n < 16 := by
  simp only [digitValue?] at h
  split at h
  · cases h
    omega
  · split at h
    · cases h
      omega
    · split at h
      · cases h
        omega
      · cases h

theorem eq_of_digitValue?_zero {b : UInt8} (h : digitValue? b = some 0) : b = 48 := by
  have hall : ∀ n < 256, digitValue? (UInt8.ofNat n) = some 0 → UInt8.ofNat n = 48 := by
    decide +kernel
  have hb := hall b.toNat b.toNat_lt
  rw [UInt8.ofNat_toNat] at hb
  exact hb h

theorem spells_of_decodePairs {index : Nat} {read digits bytes : List UInt8}
    (heven : digits.length % 2 = 0) (h : decodePairs index read digits = .ok bytes) :
    ∃ more, bytes = read.reverse ++ more ∧ Spells digits more := by
  fun_induction decodePairs index read digits with
  | case1 => cases h
  | case2 => cases h
  | case3 index read high low rest hv hhigh lv hlow ih =>
    rw [List.length_cons, List.length_cons] at heven
    obtain ⟨more, rfl, hmore⟩ := ih (by omega) h
    refine ⟨_, ?_, .cons hhigh hlow hmore⟩
    rw [List.reverse_cons, List.append_assoc, List.singleton_append]
  | case4 digits index read hshort =>
    cases h
    -- an even number of digits without a pair is none
    match digits with
    | [] => exact ⟨[], (List.append_nil _).symm, .nil⟩
    | [_] => cases heven
    | high :: low :: rest => exact (hshort high low rest rfl).elim

/-- A text that is read as bytes spells them. -/
theorem spells_of_decode {text : String} {bytes : List UInt8} (h : decode text = .ok bytes) :
    Spells (utf8Bytes text) bytes := by
  simp only [decode] at h
  split at h
  · cases h
  · obtain ⟨more, rfl, hmore⟩ := spells_of_decodePairs (by omega) h
    exact hmore

/-- Zeros are spelled by zeros. -/
theorem Spells.eq_replicate {digits bytes : List UInt8} (h : Spells digits bytes)
    (hzero : ∀ b ∈ bytes, b = 0) : digits = List.replicate (2 * bytes.length) 48 := by
  induction h with
  | nil => rfl
  | @cons high low hv lv digits bytes hhigh hlow _ ih =>
    obtain ⟨hbyte, hrest⟩ := List.forall_mem_cons.1 hzero
    have hh := digitValue?_lt hhigh
    have hl := digitValue?_lt hlow
    have hsum : 16 * hv + lv = 0 := by
      have hnat := congrArg UInt8.toNat hbyte
      rw [UInt8.toNat_ofNat', Nat.mod_eq_of_lt (by omega)] at hnat
      exact hnat
    obtain ⟨rfl, rfl⟩ : hv = 0 ∧ lv = 0 := by omega
    rw [ih hrest, eq_of_digitValue?_zero hhigh, eq_of_digitValue?_zero hlow, List.length_cons,
      Nat.mul_succ, List.replicate_succ, List.replicate_succ]

end Hex

theorem Octets.decode_of_ofHex {kind : Kind} {n : Nat} {text : String} {bytes : Octets n}
    (h : ofHex kind n text = .ok bytes) : Hex.decode text = .ok bytes.toList := by
  simp only [ofHex] at h
  split at h
  · split at h
    · cases h
    · next decoded hdecoded =>
      split at h
      · cases h
        exact hdecoded
      · cases h
  · cases h

namespace Currency

/-! ### Codes -/

/-- The text is a code of three characters. -/
def IsCode (text : String) : Prop :=
  text.toList.length = 3 ∧ text.toList.all isCodeChar = true

instance (text : String) : Decidable (IsCode text) := inferInstanceAs (Decidable (_ ∧ _))

/-- A currency with a code is not the native one. -/
theorem isNative_standard {x y z : UInt8} (hx : isCodeChar (charOf x) = true) :
    (standard x y z).isNative = false := by
  rw [Bool.eq_false_iff]
  intro hnative
  have hbytes := congrArg (fun c : Currency => c.code) (eq_native_of_isNative hnative)
  rw [code_standard] at hbytes
  obtain rfl : x = 0 := (List.cons.inj hbytes).1
  exact absurd hx (by decide)

/-- A currency with a code is in standard form, and the code is not the native one. -/
theorem exists_of_isoCode? {c : Currency} {code : String} (h : c.isoCode? = some code) :
    ∃ x y z, c = standard x y z ∧ isCodeChar (charOf x) = true ∧ IsCode code ∧
      code ≠ nativeCode := by
  unfold isoCode? at h
  split at h
  · next hiso =>
    obtain ⟨hstandard, hchars, hother⟩ := hiso
    obtain ⟨x, y, z, rfl⟩ := exists_eq_standard hstandard
    cases h
    rw [code_standard] at hchars hother ⊢
    simp only [List.all_cons, List.all_nil, Bool.and_true, Bool.and_eq_true] at hchars
    obtain ⟨hx, hy, hz⟩ := hchars
    refine ⟨x, y, z, rfl, hx, ⟨by simp, by simp [hx, hy, hz]⟩, ?_⟩
    exact ofList_charOf_ne hother
  · cases h

/-- The code of a currency is its text, if the text is a code other than the native one. -/
theorem isoCode?_eq_some_iff {c : Currency} {code : String} : c.isoCode? = some code ↔
    c.toText = code ∧ IsCode code ∧ code ≠ nativeCode := by
  constructor
  · intro h
    obtain ⟨x, y, z, rfl, hx, hcode, hother⟩ := exists_of_isoCode? h
    refine ⟨?_, hcode, hother⟩
    rw [toText, isNative_standard hx, if_neg Bool.false_ne_true, h]
  · rintro ⟨rfl, ⟨hlength, -⟩, hother⟩
    unfold toText at hlength hother ⊢
    split
    · next hnative => exact absurd (if_pos hnative) hother
    · next hissued =>
      rw [if_neg hissued] at hlength
      split
      · next hiso => exact hiso
      · next hraw =>
        -- forty digits are no code
        rw [hraw] at hlength
        exact absurd ((length_toList_toHex c.bytes).symm.trans hlength) (by decide)

/-! ### The native asset -/

/-- Forty zeros. -/
def zeroDigits : String := String.ofList (List.replicate 40 '0')

theorem utf8Bytes_zeroDigits : utf8Bytes zeroDigits = List.replicate 40 48 := by decide

/-- The native asset is not the currency of a code. -/
theorem isNative_of_ofCode? {cs : List Char} {c : Currency} (h : ofCode? cs = some c) :
    c.isNative = false := by
  unfold ofCode? at h
  split at h
  · next x y z =>
    split at h
    · next hchars =>
      cases h
      refine isNative_standard ?_
      rw [charOf_ofNat_of_isCodeChar hchars.1]
      exact hchars.1
    · cases h
  · cases h

/-- Zero bytes are read from zeros. -/
theorem eq_zeroDigits_of_ofHex {text : String}
    (h : Octets.ofHex .currency 20 text = .ok (Octets.zero 20)) : text = zeroDigits := by
  have hdigits := (Hex.spells_of_decode (Octets.decode_of_ofHex h)).eq_replicate
    fun b hb => List.eq_of_mem_replicate hb
  exact utf8Bytes_injective (hdigits.trans utf8Bytes_zeroDigits.symm)

/-- The native asset has two texts. -/
theorem ofText_eq_native_iff {text : String} :
    ofText text = .ok native ↔ text = nativeCode ∨ text = zeroDigits := by
  constructor
  · intro h
    unfold ofText at h
    split at h
    · next hcode => exact .inl hcode
    · split at h
      · next c hc =>
        cases h
        cases isNative_of_ofCode? hc
      · split at h
        · obtain ⟨bytes, hbytes, hchecked⟩ := bind_eq_ok_iff.1 h
          obtain ⟨hzero, -⟩ := checked_eq_ok_iff.1 hchecked
          cases hzero
          exact .inr (eq_zeroDigits_of_ofHex hbytes)
        · cases h
  · rintro (rfl | rfl)
    · rfl
    · rfl

/-! ### Texts and bytes -/

/-- The currency passes the check, does not spell out the native code, and is read from its bytes,
whatever follows. -/
structure IsAdmitted (c : Currency) : Prop where
  /-- The check passes. -/
  checked_eq : checked c = .ok c
  /-- The native code does not stand in standard form. -/
  ne_spelledOut : c ≠ standard 0x58 0x52 0x50
  /-- The bytes are read, behind their length or without one. -/
  reads : ∀ depth length, (∀ n, length = some n → n = 20) →
    (read length).Reads depth c.bytes.toList c

theorem isAdmitted_of_isProper {c : Currency} (h : c.IsProper) : c.IsAdmitted := by
  refine ⟨checked_eq_ok_iff.2 ⟨rfl, h⟩, ?_, fun depth length hlength => reads_read h hlength⟩
  rintro rfl
  exact absurd h (by decide)

/-- **Texts and bytes correspond.** A currency that passes the check is read from its text, so no two
of them have the same one. What is read from a text passes the check and is read from its bytes. The
native asset is read from its code and from forty zeros only. A currency has a code exactly if that
is its text and not the native code. -/
theorem spellings_exact :
    (∀ c : Currency, checked c = .ok c → ofText c.toText = .ok c) ∧
    (∀ c d : Currency, checked c = .ok c → checked d = .ok d → c.toText = d.toText → c = d) ∧
    (∀ (text : String) (c : Currency), ofText text = .ok c → c.IsAdmitted) ∧
    (∀ text : String, ofText text = .ok native ↔ text = nativeCode ∨ text = zeroDigits) ∧
    ∀ (c : Currency) (code : String), c.isoCode? = some code ↔
      c.toText = code ∧ IsCode code ∧ code ≠ nativeCode := by
  have hback : ∀ c : Currency, checked c = .ok c → ofText c.toText = .ok c := fun c hc =>
    ofText_toText (checked_eq_ok_iff.1 hc).2
  refine ⟨hback, fun c d hc hd htext => ?_, fun text c hc => ?_, fun text => ofText_eq_native_iff,
    fun c code => isoCode?_eq_some_iff⟩
  · have hread := hback c hc
    rw [htext, hback d hd] at hread
    exact (Except.ok.inj hread).symm
  · exact isAdmitted_of_isProper (isProper_of_ofText hc)

theorem spellings_exact_dollar :
    checked (standard 0x55 0x53 0x44) = .ok (standard 0x55 0x53 0x44) ∧
    ofText (standard 0x55 0x53 0x44).toText = .ok (standard 0x55 0x53 0x44) ∧
    (standard 0x55 0x53 0x44).IsAdmitted ∧ (standard 0x55 0x53 0x44).toText = "USD" := by
  have hchecked : checked (standard 0x55 0x53 0x44) = .ok (standard 0x55 0x53 0x44) := by rfl
  have hcode : (standard 0x55 0x53 0x44).isoCode? = some "USD" := by rfl
  obtain ⟨hback, -, hadmitted, -, hiso⟩ := spellings_exact
  exact ⟨hchecked, hback _ hchecked, hadmitted _ _ (hback _ hchecked), ((hiso _ _).1 hcode).1⟩

end Currency

end FieldWire
