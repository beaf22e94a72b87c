import FieldWire.Proofs.Amount.Decimal
import Mathlib.Algebra.Order.Field.Power
import Mathlib.Algebra.Order.Field.Rat
import Mathlib.Tactic.FieldSimp
import Mathlib.Tactic.Ring

/-!
# What decimal numbers denote

A decimal text and a number of an issued amount denote rational numbers (`DecimalText.value`,
`IssuedValue.toRat`), and reading keeps the number that is denoted. The argument has three parts.

* Only digits that count matter: a number whose last digit is not zero is the digits of another
  number with zeros behind them, or both denote different numbers (`exists_mul_pow_of_eq`).
* Normal form of at most sixteen digits is reached exactly where some number in normal form denotes
  the same (`IssuedValue.normalize_eq_ok_iff`).
* The checks on the way, that both exponents fit a word and that no more than sixteen digits count,
  refuse no text that denotes such a number (`IssuedValue.ofText_of_toRat_eq`).
-/

namespace FieldWire

/-- The number of a given sign and size. -/
def signed (negative : Bool) (size : ℚ) : ℚ := if negative then -size else size

theorem signed_eq_zero_iff {negative : Bool} {size : ℚ} : signed negative size = 0 ↔ size = 0 := by
  rw [signed]
  split
  · exact neg_eq_zero
  · exact Iff.rfl

/-- A number that is not zero has one sign and one size. -/
theorem eq_of_signed_eq {n₁ n₂ : Bool} {s₁ s₂ : ℚ} (h₁ : 0 < s₁) (h₂ : 0 < s₂)
    (h : signed n₁ s₁ = signed n₂ s₂) : n₁ = n₂ ∧ s₁ = s₂ := by
  have hdiffer : -s₁ ≠ s₂ := (lt_trans (neg_neg_of_pos h₁) h₂).ne
  have hdiffer' : s₁ ≠ -s₂ := (lt_trans (neg_neg_of_pos h₂) h₁).ne'
  cases n₁ <;> cases n₂
  · exact ⟨rfl, h⟩
  · exact absurd h hdiffer'
  · exact absurd h hdiffer
  · exact ⟨rfl, neg_injective h⟩

/-- The number that a decimal text denotes. -/
def DecimalText.value (t : DecimalText) : ℚ :=
  signed t.sign.isMinus
    ((t.whole.value + (Nat.ofDigitChars 10 t.places 0 : ℚ) / 10 ^ t.places.length) *
      10 ^ t.exponentValue)

/-- The number of an issued amount as a rational number. -/
def IssuedValue.toRat (v : IssuedValue) : ℚ :=
  signed v.negative (v.mantissa * 10 ^ v.exponent)

/-- Moving the point behind the last digit lowers the exponent by the places that it passes. -/
theorem DecimalText.value_eq (t : DecimalText) : t.value = signed t.sign.isMinus
    (Nat.ofDigitChars 10 t.digits 0 * 10 ^ (t.exponentValue - t.places.length)) := by
  have hdigits : Nat.ofDigitChars 10 t.digits 0 =
      10 ^ t.places.length * t.whole.value + Nat.ofDigitChars 10 t.places 0 := by
    rw [digits, Nat.ofDigitChars_append, Nat.ofDigitChars_eq_ofDigitChars_zero, Digits.value]
  have hpow : (10 : ℚ) ^ (t.exponentValue - t.places.length) =
      10 ^ t.exponentValue / 10 ^ t.places.length := by
    rw [zpow_sub₀ (by norm_num), zpow_natCast]
  rw [value, hdigits, hpow]
  congr 1
  push_cast
  field_simp

/-! ### Powers of ten -/

theorem size_pos {m : Nat} (hm : 0 < m) {e : Int} : (0 : ℚ) < m * 10 ^ e :=
  mul_pos (Nat.cast_pos.2 hm) (zpow_pos (by norm_num) e)

/-- Of two equal numbers the one with the smaller exponent has more digits. -/
theorem eq_mul_pow_of_eq {m n : Nat} {a b : Int} (h : (m : ℚ) * 10 ^ a = n * 10 ^ b)
    (hab : a ≤ b) : m = n * 10 ^ (b - a).toNat := by
  have hpow : (10 : ℚ) ^ b = 10 ^ (b - a).toNat * 10 ^ a := by
    rw [← zpow_natCast, Int.toNat_of_nonneg (by omega), ← zpow_add₀ (by norm_num)]
    congr 1
    omega
  have hne : (10 : ℚ) ^ a ≠ 0 := zpow_ne_zero a (by norm_num)
  rw [hpow, ← mul_assoc] at h
  exact_mod_cast mul_right_cancel₀ hne h

/-- Digits that do not end in zero are those of every equal number, with zeros behind them. -/
theorem exists_mul_pow_of_eq {m n : Nat} {a b : Int} (hn : ¬10 ∣ n)
    (h : (m : ℚ) * 10 ^ a = n * 10 ^ b) : ∃ k : Nat, b = a + k ∧ m = n * 10 ^ k := by
  by_cases hab : a ≤ b
  · exact ⟨(b - a).toNat, by omega, eq_mul_pow_of_eq h hab⟩
  · exfalso
    have hm := eq_mul_pow_of_eq h.symm (by omega)
    have hdvd : 10 ∣ 10 ^ (a - b).toNat := dvd_pow_self 10 (by omega)
    exact hn (hm ▸ hdvd.mul_left m)

/-- A number of sixteen digits has at most fifteen zeros at its end. -/
theorem lt_precision_of_mul_pow {m n k : Nat} (h : m = n * 10 ^ k) (hpos : 0 < m)
    (hmax : m ≤ IssuedValue.maxMantissa) : k < IssuedValue.precision := by
  by_contra hk
  have hn : 0 < n := Nat.pos_of_ne_zero (by rintro rfl; omega)
  have hle : 10 ^ IssuedValue.precision ≤ n * 10 ^ k :=
    (Nat.pow_le_pow_right (by decide) (by omega)).trans (Nat.le_mul_of_pos_left _ hn)
  have hpow : 10 ^ IssuedValue.precision = IssuedValue.maxMantissa + 1 := by decide
  omega

namespace IssuedValue

/-! ### Normal form -/

/-- Scaling keeps the number. -/
theorem scale_value (steps m : Nat) (e : Int) :
    ((scale steps m e).1 : ℚ) * 10 ^ (scale steps m e).2 = m * 10 ^ e := by
  induction steps generalizing m e with
  | zero => rfl
  | succ steps ih =>
    rw [scale]
    split
    · rw [ih, zpow_sub₀ (by norm_num), zpow_one]
      push_cast
      field_simp
    · rfl

theorem toRat_zero : zero.toRat = 0 := by simp [toRat, zero, signed]

/-- A number of at most sixteen digits is brought to the number in normal form that denotes the
same, if there is one. -/
theorem normalize_eq_ok_iff {negative : Bool} {m : Nat} {e : Int} {v : IssuedValue} (hpos : 0 < m)
    (hmax : m ≤ maxMantissa) :
    normalize negative m e = .ok v ↔ v.IsNormal ∧ v.toRat = signed negative (m * 10 ^ e) := by
  constructor
  · intro h
    refine ⟨isNormal_of_normalize h, ?_⟩
    rw [normalize, if_neg hpos.ne'] at h
    dsimp only at h
    split_ifs at h
    cases h
    rw [toRat, scale_value]
  · rintro ⟨hnormal, hvalue⟩
    have hsize : (0 : ℚ) < m * 10 ^ e := size_pos hpos
    obtain rfl | ⟨hv, hmin, hmaxv, -, -⟩ := hnormal.cases
    · rw [toRat_zero, eq_comm, signed_eq_zero_iff] at hvalue
      exact absurd hvalue hsize.ne'
    · have hposv : 0 < v.mantissa := Nat.lt_of_lt_of_le (by decide) hmin
      obtain ⟨rfl, hequal⟩ := eq_of_signed_eq (size_pos hposv) hsize hvalue
      by_cases hle : v.exponent ≤ e
      · have hdigits := eq_mul_pow_of_eq hequal hle
        have hfew := lt_precision_of_mul_pow hdigits hposv hmaxv
        have hexponent : e = v.exponent + (e - v.exponent).toNat := by omega
        rw [hexponent]
        exact normalize_mul hnormal hv hdigits.symm hfew.le
      · -- the digits would be more than sixteen
        have hdigits := eq_mul_pow_of_eq hequal.symm (by omega)
        have hten : 10 ≤ 10 ^ (v.exponent - e).toNat := Nat.le_self_pow (by omega) 10
        have hmany := Nat.mul_le_mul hmin hten
        rw [← hdigits] at hmany
        exact absurd (hmany.trans hmax) (by decide)

/-! ### Digits that count -/

/-- A number has no more digits than are written. -/
theorem ofDigitChars_lt {cs : List Char} (h : ∀ c ∈ cs, c.isDigit = true) :
    Nat.ofDigitChars 10 cs 0 < 10 ^ cs.length := by
  induction cs with
  | nil => exact Nat.one_pos
  | cons c rest ih =>
    obtain ⟨hc, hrest⟩ := List.forall_mem_cons.1 h
    obtain ⟨-, hlt⟩ := Text.digitValue?_of_isDigit hc
    have hdigit : 10 ^ rest.length * (c.toNat - '0'.toNat) ≤ 10 ^ rest.length * 9 :=
      Nat.mul_le_mul_left _ (by omega)
    have hlow := ih hrest
    rw [Nat.ofDigitChars_cons, Nat.ofDigitChars_eq_ofDigitChars_zero, List.length_cons, pow_succ,
      Nat.mul_zero, Nat.zero_add]
    omega

/-- A digit other than zero is not worth zero. -/
private theorem digit_pos {c : Char} (hc : c.isDigit = true) (hne : c ≠ '0') :
    0 < c.toNat - '0'.toNat := by
  have hle : '0'.toNat ≤ c.toNat := (Char.isDigit_iff_toNat.1 hc).1
  have hdiffer : c.toNat ≠ '0'.toNat := mt Char.toNat_inj.1 hne
  omega

/-- Digits that count make a number of as many digits. -/
theorem IsSignificant.pow_le {digits : List Char} (h : IsSignificant digits)
    (hdigits : ∀ c ∈ digits, c.isDigit = true) :
    10 ^ (digits.length - 1) ≤ Nat.ofDigitChars 10 digits 0 := by
  obtain ⟨c, rest, rfl⟩ := List.exists_cons_of_ne_nil h.ne_nil
  have hc := digit_pos (hdigits c List.mem_cons_self) (h.head c rfl)
  rw [Nat.ofDigitChars_cons, Nat.ofDigitChars_eq_ofDigitChars_zero, Nat.mul_zero, Nat.zero_add]
  exact Nat.le_add_right_of_le (Nat.le_mul_of_pos_right _ hc)

/-- A number of at most sixteen digits has no more digits that count. -/
theorem IsSignificant.length_le {digits : List Char} (h : IsSignificant digits)
    (hdigits : ∀ c ∈ digits, c.isDigit = true)
    (hmax : Nat.ofDigitChars 10 digits 0 ≤ maxMantissa) : digits.length ≤ precision := by
  have hpow : 10 ^ (digits.length - 1) < 10 ^ precision :=
    ((h.pow_le hdigits).trans hmax).trans_lt (by decide)
  have hlt := (Nat.pow_lt_pow_iff_right (by decide)).1 hpow
  omega

/-- Digits that count make a number that does not end in zero. -/
theorem IsSignificant.not_dvd {digits : List Char} (h : IsSignificant digits)
    (hdigits : ∀ c ∈ digits, c.isDigit = true) : ¬10 ∣ Nat.ofDigitChars 10 digits 0 := by
  obtain ⟨front, c, hconcat⟩ := (List.eq_nil_or_concat digits).resolve_left h.ne_nil
  rw [List.concat_eq_append] at hconcat
  have hmem : c ∈ digits := by
    rw [hconcat]
    exact List.mem_append_right _ List.mem_cons_self
  have hlast : c ≠ '0' := h.trimmed c (by rw [hconcat]; exact List.getLast?_concat)
  have hpos := digit_pos (hdigits c hmem) hlast
  obtain ⟨-, hlt⟩ := Text.digitValue?_of_isDigit (hdigits c hmem)
  rw [hconcat, Nat.ofDigitChars_append, Nat.ofDigitChars_cons, Nat.ofDigitChars_nil]
  omega

/-- Zeros in front of digits do not count, and those behind them may stand in the exponent. -/
theorem value_of_digits {t : DecimalText} {digits : List Char} {front back : Nat}
    (h : t.digits = List.replicate front '0' ++ (digits ++ List.replicate back '0')) :
    t.value = signed t.sign.isMinus (Nat.ofDigitChars 10 digits 0 *
      10 ^ (t.exponentValue - t.places.length + back)) := by
  rw [DecimalText.value_eq, h, Nat.ofDigitChars_append, Nat.ofDigitChars_replicate_zero,
    Nat.mul_zero, Nat.ofDigitChars_append, Nat.ofDigitChars_replicate_zero,
    zpow_add₀ (by norm_num), zpow_natCast]
  congr 1
  push_cast
  ring

theorem value_of_zeros {t : DecimalText} {zeros : Nat} (h : t.digits = List.replicate zeros '0') :
    t.value = 0 := by
  rw [DecimalText.value_eq, h, Nat.ofDigitChars_replicate_zero, Nat.mul_zero, signed_eq_zero_iff,
    Nat.cast_zero, zero_mul]

theorem isDigit_of_digits {t : DecimalText} {digits : List Char} {front back : Nat}
    (h : t.digits = List.replicate front '0' ++ (digits ++ List.replicate back '0')) :
    ∀ c ∈ digits, c.isDigit = true := by
  intro c hc
  refine DecimalText.isDigit_of_mem_digits (t := t) ?_
  rw [h]
  exact List.mem_append_right _ (List.mem_append_left _ hc)

/-! ### Reading -/

variable {t : DecimalText} {v : IssuedValue}

/-- Both exponents of a text that is read fit a word: the written one and that of its last digit. -/
theorem isInt64_of_ofText (h : ofText t.text = .ok v) : Text.isInt64 t.exponentValue = true ∧
    Text.isInt64 (t.exponentValue - t.places.length) = true := by
  have hparts : parts? t.text.toList = if Text.isInt64 t.exponentValue then
      (wordExponent? (t.exponentValue - t.places.length)).map fun e =>
        (t.sign.isMinus, t.digits, e) else none := by
    rw [DecimalText.text, String.toList_ofList, parts?_chars]
  by_cases hexponent : Text.isInt64 t.exponentValue = true
  · by_cases hlast : Text.isInt64 (t.exponentValue - t.places.length) = true
    · exact ⟨hexponent, hlast⟩
    · simp [ofText, hparts, wordExponent?, hexponent, hlast] at h
  · simp [ofText, hparts, hexponent] at h

theorem parts?_text (hexponent : Text.isInt64 t.exponentValue = true)
    (hlast : Text.isInt64 (t.exponentValue - t.places.length) = true) :
    parts? t.text.toList =
      some (t.sign.isMinus, t.digits, t.exponentValue - t.places.length) := by
  rw [DecimalText.text, String.toList_ofList, parts?_chars, if_pos hexponent, wordExponent?,
    if_pos hlast, Option.map_some]

/-- A text of zeros is read as zero if both of its exponents fit a word. -/
theorem ofText_zeros_eq_ok_iff {zeros : Nat} (h : t.digits = List.replicate zeros '0') :
    ofText t.text = .ok v ↔ Text.isInt64 t.exponentValue = true ∧
      Text.isInt64 (t.exponentValue - t.places.length) = true ∧ v = zero := by
  constructor
  · intro hread
    obtain ⟨hexponent, hlast⟩ := isInt64_of_ofText hread
    have hparts := parts?_text hexponent hlast
    rw [h] at hparts
    rw [ofText_of_zeros hparts] at hread
    exact ⟨hexponent, hlast, (Except.ok.inj hread).symm⟩
  · rintro ⟨hexponent, hlast, rfl⟩
    have hparts := parts?_text hexponent hlast
    rw [h] at hparts
    exact ofText_of_zeros hparts

/-- A text with digits that count is read as the number in normal form that denotes the same, if
its exponents fit a word and its digits are not too many. -/
theorem ofText_digits_eq_ok_iff {digits : List Char} {front back : Nat}
    (h : t.digits = List.replicate front '0' ++ (digits ++ List.replicate back '0'))
    (hsignificant : IsSignificant digits) :
    ofText t.text = .ok v ↔ (Text.isInt64 t.exponentValue = true ∧
      Text.isInt64 (t.exponentValue - t.places.length) = true ∧
      Text.isInt64 (t.exponentValue - t.places.length + back) = true ∧
      digits.length ≤ precision) ∧ v.IsNormal ∧ v.toRat = t.value := by
  have hdigits := isDigit_of_digits h
  have hpos : 0 < Nat.ofDigitChars 10 digits 0 :=
    Nat.lt_of_lt_of_le (Nat.pow_pos (by decide)) (hsignificant.pow_le hdigits)
  have hfew : digits.length ≤ precision → Nat.ofDigitChars 10 digits 0 ≤ maxMantissa := by
    intro hlength
    have hlt := (ofDigitChars_lt hdigits).trans_le (Nat.pow_le_pow_right (by decide) hlength)
    have hpow : 10 ^ precision = maxMantissa + 1 := by decide
    omega
  have hnormalize : ∀ hlength : digits.length ≤ precision,
      normalize t.sign.isMinus (Nat.ofDigitChars 10 digits 0)
        (t.exponentValue - t.places.length + back) = .ok v ↔ v.IsNormal ∧ v.toRat = t.value := by
    intro hlength
    rw [normalize_eq_ok_iff hpos (hfew hlength), value_of_digits h]
  have hparts : Text.isInt64 t.exponentValue = true →
      Text.isInt64 (t.exponentValue - t.places.length) = true →
      parts? t.text.toList = some (t.sign.isMinus,
        List.replicate front '0' ++ (digits ++ List.replicate back '0'),
        t.exponentValue - t.places.length) := fun hexponent hlast =>
    h ▸ parts?_text hexponent hlast
  constructor
  · intro hok
    obtain ⟨hexponent, hlast⟩ := isInt64_of_ofText hok
    rw [ofText_of_parts? hsignificant (hparts hexponent hlast), wordExponent?] at hok
    by_cases hword : Text.isInt64 (t.exponentValue - t.places.length + back) = true
    · rw [if_pos hword] at hok
      dsimp only at hok
      split_ifs at hok with hlength
      have hlength := Nat.not_lt.1 hlength
      exact ⟨⟨hexponent, hlast, hword, hlength⟩, (hnormalize hlength).1 hok⟩
    · rw [if_neg hword] at hok
      cases hok
  · rintro ⟨⟨hexponent, hlast, hword, hlength⟩, hv⟩
    rw [ofText_of_parts? hsignificant (hparts hexponent hlast), wordExponent?, if_pos hword]
    dsimp only
    rw [if_neg (Nat.not_lt.2 hlength)]
    exact (hnormalize hlength).2 hv

/-- What is read denotes the same number as the text. -/
theorem toRat_of_ofText (h : ofText t.text = .ok v) : v.toRat = t.value := by
  obtain ⟨zeros, hzeros⟩ | ⟨front, digits, back, hdigits, hsignificant⟩ :=
    exists_significant t.digits
  · obtain ⟨-, -, rfl⟩ := (ofText_zeros_eq_ok_iff hzeros).1 h
    rw [toRat_zero, value_of_zeros hzeros]
  · exact ((ofText_digits_eq_ok_iff hdigits hsignificant).1 h).2.2

theorem length_digits_le (t : DecimalText) : t.digits.length ≤ t.chars.length := by
  have hpointed : t.places.length ≤ t.pointed.length := by
    unfold DecimalText.places DecimalText.pointed
    cases t.fraction with
    | none => exact le_rfl
    | some f => exact Nat.le_succ _
  rw [DecimalText.digits, DecimalText.chars]
  simp only [List.length_append]
  omega

/-- A text is read as the number in normal form that denotes the same, if that is not zero: its last
digit that counts stands close to the digits of that number, and so do the others. -/
theorem ofText_of_toRat_eq (hlength : t.chars.length < 2 ^ 62)
    (hexponent : Text.isInt64 t.exponentValue = true) (hv : v.IsNormal) (hne : t.value ≠ 0)
    (h : v.toRat = t.value) : ofText t.text = .ok v := by
  obtain ⟨zeros, hzeros⟩ | ⟨front, digits, back, hdigits, hsignificant⟩ :=
    exists_significant t.digits
  · exact absurd (value_of_zeros hzeros) hne
  · have hisDigit := isDigit_of_digits hdigits
    have hpos : 0 < Nat.ofDigitChars 10 digits 0 :=
      (Nat.pow_pos (by decide)).trans_le (hsignificant.pow_le hisDigit)
    obtain rfl | ⟨-, hmin, hmax, hleast, hgreatest⟩ := hv.cases
    · exact absurd (h.symm.trans toRat_zero) hne
    have hmantissa : 0 < v.mantissa := Nat.lt_of_lt_of_le (by decide) hmin
    obtain ⟨k, hk, hzeros⟩ : ∃ k : Nat,
        t.exponentValue - t.places.length + back = v.exponent + k ∧
          v.mantissa = Nat.ofDigitChars 10 digits 0 * 10 ^ k := by
      have hvalue := h
      rw [value_of_digits hdigits] at hvalue
      have hsizes := eq_of_signed_eq (size_pos hmantissa) (size_pos hpos) hvalue
      exact exists_mul_pow_of_eq (hsignificant.not_dvd hisDigit) hsizes.2
    have hfew : digits.length ≤ precision := by
      have hle : Nat.ofDigitChars 10 digits 0 ≤ v.mantissa := by
        rw [hzeros]
        exact Nat.le_mul_of_pos_right _ (Nat.pow_pos (by decide))
      exact hsignificant.length_le hisDigit (hle.trans hmax)
    have hk15 := lt_precision_of_mul_pow hzeros hmantissa hmax
    -- the zeros behind the digits are characters of the text
    have hback : back < 2 ^ 62 := by
      have hcount := (length_digits_le t).trans_lt hlength
      rw [hdigits, List.length_append, List.length_append, List.length_replicate,
        List.length_replicate] at hcount
      omega
    unfold minExponent at hleast
    unfold maxExponent at hgreatest
    unfold precision at hk15
    refine (ofText_digits_eq_ok_iff hdigits hsignificant).2
      ⟨⟨hexponent, Text.isInt64_iff.2 ?_, Text.isInt64_iff.2 ?_, hfew⟩, hv, h⟩
    · omega
    · omega

end IssuedValue

end FieldWire
