import FieldWire.Proofs.Amount.Decimal
import FieldWire.Proofs.Amount.Drops
import FieldWire.Proofs.Asset

/-!
# Amounts read back

A native amount is *proper* when there are no more drops than there can be and zero is not negative;
an issued amount is proper when its number is in normal form and its currency is proper and not the
native one. Plain values and bytes yield proper amounts only, and a proper amount reads back from
its plain form and from its bytes.
-/

namespace FieldWire

variable {depth : Nat}

/-- The first digit in base 256. -/
theorem BigEndian.ofNat_succ (width n : Nat) :
    ofNat (width + 1) n = UInt8.ofNat (n / Nat.pow 256 width) :: ofNat width n := by
  induction width generalizing n with
  | zero =>
    rw [ofNat, ofNat, show Nat.pow 256 0 = 1 from rfl, Nat.div_one]
    rfl
  | succ width ih =>
    rw [ofNat, ih, ofNat, Nat.div_div_eq_div_mul, show 256 * Nat.pow 256 width =
      Nat.pow 256 (width + 1) from Nat.mul_comm _ _, List.cons_append]

namespace Amount

/-- The parts are in range and fit together. -/
def IsProper : Amount → Prop
  | native drops negative => drops ≤ maxDrops ∧ (negative = true → drops ≠ 0)
  | issued value currency _ => value.IsNormal ∧ currency.IsProper ∧ currency.isNative = false

instance : (a : Amount) → Decidable a.IsProper
  | native _ _ => inferInstanceAs (Decidable (_ ∧ _))
  | issued _ _ _ => inferInstanceAs (Decidable (_ ∧ _ ∧ _))

/-! ### Plain form -/

/-- A native amount of a text is proper. -/
theorem isProper_of_nativeOfText {text : String} {a : Amount} (h : nativeOfText text = .ok a) :
    a.IsProper := by
  obtain ⟨t, -, hdrops, rfl⟩ := nativeOfText_eq_ok_iff.1 h
  refine ⟨hdrops, fun hnegative => ?_⟩
  rw [decide_eq_true_eq] at hnegative
  omega

/-- The text of a proper native amount reads back. -/
theorem nativeOfText_toString {drops : Nat} {negative : Bool}
    (h : (native drops negative).IsProper) :
    nativeOfText ((if negative then "-" else "") ++ toString drops) =
      .ok (native drops negative) := by
  obtain ⟨hdrops, hnegative⟩ := h
  let digits : DecimalText.Digits :=
    ⟨Nat.toDigits 10 drops, fun _ => IssuedValue.isDigit_of_mem_toDigits⟩
  let t : DropsText := ⟨negative, digits, Nat.toDigits_ne_nil⟩
  have htext : t.text = (if negative then "-" else "") ++ toString drops := by
    rw [DropsText.text, String.ofList_append, Nat.toString_eq_ofList_toDigits]
    cases negative <;> rfl
  have hvalue : ofSignedDrops t.value = native drops negative := by
    have hdigits : digits.value = drops := Nat.ofDigitChars_ten_toDigits
    have hsign : (negative && decide (drops ≠ 0)) = negative := by
      cases negative with
      | true => rw [decide_eq_true (hnegative rfl), Bool.and_true]
      | false => rfl
    rw [ofSignedDrops_value, hdigits, hsign]
  refine nativeOfText_eq_ok_iff.2 ⟨t, htext, ?_, hvalue.symm⟩
  exact (native.inj hvalue).1.trans_le hdrops

/-- An amount of a plain value is proper. -/
theorem isProper_of_ofJson {book : AddressBook} {j : Json} {a : Amount}
    (h : ofJson book j = .ok a) : a.IsProper := by
  cases j with
  | str text => exact isProper_of_nativeOfText h
  | num n => exact isProper_of_nativeOfText h
  | obj members =>
    obtain ⟨_, -, h⟩ := bind_eq_ok_iff.1 h
    obtain ⟨value, hvalue, h⟩ := bind_eq_ok_iff.1 h
    obtain ⟨_, -, h⟩ := bind_eq_ok_iff.1 h
    obtain ⟨currency, hcurrency, h⟩ := bind_eq_ok_iff.1 h
    split at h
    · cases h
    · next hissued =>
      obtain ⟨_, -, h⟩ := bind_eq_ok_iff.1 h
      obtain ⟨issuer, -, h⟩ := bind_eq_ok_iff.1 h
      cases h
      refine ⟨?_, Currency.isProper_of_ofJson hcurrency, by simpa using hissued⟩
      unfold issuedValueOfJson at hvalue
      split at hvalue
      · exact IssuedValue.isNormal_of_ofText (mapError_eq_ok_iff.1 hvalue)
      · exact IssuedValue.isNormal_of_ofText (mapError_eq_ok_iff.1 hvalue)
      · cases hvalue
  | null | bool _ | arr _ => cases h

/-- The plain form of a proper amount reads back. -/
theorem ofJson_toJson_of_isLawful {book : AddressBook} (hbook : book.IsLawful) {a : Amount}
    (h : a.IsProper) : ofJson book (a.toJson book) = .ok a := by
  cases a with
  | native drops negative => exact nativeOfText_toString h
  | issued value currency issuer =>
    obtain ⟨hvalue, hcurrency, hissued⟩ := h
    have hnumber : issuedValueOfJson (.str value.toText) = .ok value := by
      rw [issuedValueOfJson, IssuedValue.ofText_toText hvalue]
      rfl
    simp [ofJson, toJson, issuedOfMembers, member, Members.get?_cons, bind, Except.bind, hnumber,
      Currency.ofJson_toJson hcurrency, hissued, hbook.accountOfJson_accountToJson, pure,
      Except.pure]

/-- The plain form of a proper amount, with the issuer in hexadecimal digits, reads back. -/
theorem ofJson_toJson {a : Amount} (h : a.IsProper) : ofJson .hex (a.toJson .hex) = .ok a :=
  ofJson_toJson_of_isLawful AddressBook.isLawful_hex h

/-! ### Written form -/

/-- The word of a native amount. -/
def nativeBits (drops : Nat) (negative : Bool) : Nat :=
  (if negative then 0 else IssuedValue.positiveBit) ||| drops

/-- The sign bit of a native amount stands above its drops. -/
private theorem nativeBits_eq {drops : Nat} (h : drops < IssuedValue.positiveBit)
    (negative : Bool) : nativeBits drops negative =
      (if negative then 0 else IssuedValue.positiveBit) + drops := by
  cases negative with
  | true => simp [nativeBits]
  | false => exact (Nat.two_pow_add_eq_or_of_lt (i := 62) h 1).symm

/-- The word of a proper native amount reads back and lacks the issued bit. -/
theorem nativeOfBits_nativeBits {drops : Nat} {negative : Bool}
    (h : (native drops negative).IsProper) :
    nativeBits drops negative < IssuedValue.issuedBit ∧
      nativeOfBits (nativeBits drops negative) = .ok (native drops negative) := by
  obtain ⟨hdrops, hnegative⟩ := h
  have hlow : drops < IssuedValue.positiveBit := Nat.lt_of_le_of_lt hdrops (by decide)
  -- the drops stay below the sign bit, so the two parts can be taken apart by division
  have hmod : nativeBits drops negative % IssuedValue.positiveBit = drops := by
    rw [nativeBits_eq hlow]
    cases negative with
    | true => rw [if_pos rfl, Nat.zero_add, Nat.mod_eq_of_lt hlow]
    | false => rw [if_neg Bool.false_ne_true, Nat.add_mod_left, Nat.mod_eq_of_lt hlow]
  have hdiv : decide (nativeBits drops negative / IssuedValue.positiveBit % 2 = 0) = negative := by
    rw [nativeBits_eq hlow]
    unfold IssuedValue.positiveBit at hlow ⊢
    cases negative with
    | true =>
      rw [if_pos rfl, decide_eq_true_eq]
      omega
    | false =>
      rw [if_neg Bool.false_ne_true, decide_eq_false_iff_not]
      omega
  have hzero : ¬(negative = true ∧ drops = 0) := fun hboth => hnegative hboth.1 hboth.2
  constructor
  · rw [nativeBits_eq hlow]
    unfold IssuedValue.positiveBit at hlow ⊢
    unfold IssuedValue.issuedBit
    split <;> omega
  · simp only [nativeOfBits, hmod, hdiv, checkDrops_eq_ok_iff.2 hdrops, bind, Except.bind,
      if_neg hzero]
    rfl

/-- A word without the issued bit is that of the native amount that it yields. -/
private theorem nativeBits_of_nativeOfBits {bits : Nat} (hbits : bits < IssuedValue.issuedBit)
    {a : Amount} (h : nativeOfBits bits = .ok a) :
    a.bytes = BigEndian.ofNat 8 bits ∧ a.IsProper := by
  simp only [nativeOfBits] at h
  obtain ⟨_, hdrops, h⟩ := bind_eq_ok_iff.1 h
  have hmax := checkDrops_eq_ok_iff.1 hdrops
  split at h
  · cases h
  · next hzero =>
    cases h
    refine ⟨?_, hmax, fun hnegative hdrops => hzero ⟨hnegative, hdrops⟩⟩
    have hlow : bits % IssuedValue.positiveBit < IssuedValue.positiveBit :=
      Nat.mod_lt _ (by decide)
    have hback : nativeBits (bits % IssuedValue.positiveBit)
        (decide (bits / IssuedValue.positiveBit % 2 = 0)) = bits := by
      rw [nativeBits_eq hlow]
      unfold IssuedValue.positiveBit
      unfold IssuedValue.issuedBit at hbits
      simp only [decide_eq_true_eq]
      split <;> omega
    rw [bytes]
    exact congrArg (BigEndian.ofNat 8) hback

/-- The first byte of a word tells whether it has the issued bit. -/
theorem first_lt_iff {bits : Nat} (h : bits < Nat.pow 256 8) :
    (UInt8.ofNat (bits / Nat.pow 256 7)).toNat < 128 ↔ bits / IssuedValue.issuedBit % 2 = 0 := by
  rw [show Nat.pow 256 8 = 18446744073709551616 from rfl] at h
  rw [UInt8.toNat_ofNat', show Nat.pow 256 7 = 72057594037927936 from rfl]
  unfold IssuedValue.issuedBit
  omega

/-- The bytes of a proper amount read back. -/
theorem reads_read {a : Amount} (h : a.IsProper) {length : Option Nat}
    (hlength : ∀ n, length = some n → n = a.bytes.length) :
    (read length).Reads depth a.bytes a := by
  cases a with
  | native drops negative =>
    obtain ⟨hlow, hread⟩ := nativeOfBits_nativeBits h
    have hbits : nativeBits drops negative < Nat.pow 256 8 := Nat.lt_trans hlow (by decide)
    have hbytes : bytes (native drops negative) = BigEndian.ofNat 8 (nativeBits drops negative) :=
      rfl
    -- the reader looks at the first byte and then at the word, and both tell the same form
    have hissued : nativeBits drops negative / IssuedValue.issuedBit % 2 = 0 := by
      rw [Nat.div_eq_of_lt hlow]
    rw [hbytes, BigEndian.length_ofNat] at hlength
    rw [hbytes, BigEndian.ofNat_succ]
    refine .peeks_bind Reader.peeks_peek ?_
    rw [if_pos ((first_lt_iff hbits).2 hissued), ← BigEndian.ofNat_succ]
    refine (Reader.Reads.checkWidth hlength).nil_bind ((Reader.Reads.number hbits).bind_nil ?_)
    rw [if_pos hissued, hread]
    exact .lift _
  | issued value currency issuer =>
    obtain ⟨hvalue, hcurrency, hnative⟩ := h
    have hbits := IssuedValue.toBits_lt hvalue
    have hissued := IssuedValue.issued_toBits hvalue
    have hwidth : (bytes (issued value currency issuer)).length = 48 := by simp [bytes]
    rw [hwidth] at hlength
    rw [bytes, List.append_assoc, BigEndian.ofNat_succ, List.cons_append]
    refine .peeks_bind Reader.peeks_peek ?_
    rw [if_neg (mt (first_lt_iff hbits).1 hissued), ← List.cons_append, ← BigEndian.ofNat_succ]
    refine (Reader.Reads.checkWidth hlength).nil_bind ((Reader.Reads.number hbits).bind ?_)
    rw [if_neg hissued, IssuedValue.ofBits_toBits hvalue]
    refine (Reader.Reads.lift value).nil_bind ((Currency.reads_readChecked hcurrency).bind ?_)
    rw [hnative, if_neg Bool.false_ne_true]
    exact (Reader.Reads.octets issuer).bind_nil (.pure _)

/-- An amount that is read is proper and was given by its bytes. -/
theorem yields_read (length : Option Nat) :
    (read length).Yields depth fun taken a => taken = a.bytes ∧ a.IsProper := by
  -- what the byte that comes next says is decided again by the word, so it is not used
  refine .peeks_bind Reader.peeks_peek fun first => .of_yields ?_
  refine (Reader.Yields.checkWidth _ _ _).nil_bind fun _ _ => ?_
  refine (Reader.Yields.number 8).bind ?_
  rintro _ bits ⟨rfl, hbits⟩
  split
  · next hnative =>
    have hlow : bits < IssuedValue.issuedBit := by
      rw [show Nat.pow 256 8 = 18446744073709551616 from rfl] at hbits
      unfold IssuedValue.issuedBit at hnative ⊢
      omega
    refine (Reader.Yields.lift _).mono ?_
    rintro _ a ⟨rfl, ha⟩ _
    obtain ⟨hbytes, hproper⟩ := nativeBits_of_nativeOfBits hlow ha
    exact ⟨by rw [List.append_nil, hbytes], hproper⟩
  · refine (Reader.Yields.lift _).nil_bind fun value hvalue => ?_
    obtain ⟨hvalueBits, hnormal⟩ := IssuedValue.toBits_of_ofBits hbits (mapError_eq_ok_iff.1 hvalue)
    refine Currency.yields_readChecked.bind ?_
    rintro _ currency ⟨rfl, hcurrency⟩
    split
    · exact .throw _
    · next hissued =>
      refine (Reader.Yields.octets 20).bind ?_
      rintro _ issuer rfl
      refine .pure fun _ => ⟨?_, hnormal, hcurrency, by simpa using hissued⟩
      rw [bytes, hvalueBits, List.append_nil, List.append_assoc]

end Amount

end FieldWire
