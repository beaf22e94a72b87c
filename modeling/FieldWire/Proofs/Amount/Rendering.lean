import FieldWire.Proofs.Amount.Words

/-!
# Plain texts of decimal numbers

The text of a number is in plain notation, without an exponent and without a digit that could be
left out, and it denotes the number. Nothing overflows while it is written: the places by which the
point moves are counted in words, and where it falls among the digits there is a digit to each side
of it (`IssuedValue.toTextInWords_eq`). So the text of a number that was read or unpacked is exact
(`IssuedValue.toText_exact`); that it reads back to the number makes most of the proof, since what
reads as the number denotes it.
-/

namespace FieldWire.IssuedValue

/-! ### Writing in words -/

/-- The first digits and the rest of them, if there are so many. -/
def splitAt? (index : Nat) (digits : List Char) : Option (List Char × List Char) :=
  if index ≤ digits.length then some (digits.take index, digits.drop index) else none

/-- Places the point in words. -/
def placePointInWords (digits : List Char) (exponent : Int) : Option (List Char) :=
  if 0 ≤ exponent then some (digits ++ List.replicate exponent.toNat '0')
  else do
    let count ← wordExponent? digits.length
    let point ← wordExponent? (count + exponent)
    if 0 < point then
      let (whole, fraction) ← splitAt? point.toNat digits
      return whole ++ '.' :: fraction
    else
      let gap ← wordExponent? (-point)
      return '0' :: '.' :: List.replicate gap.toNat '0' ++ digits

/-- Writes a number in words. -/
def toTextInWords (v : IssuedValue) : Option String :=
  if v.isZero then some "0"
  else do
    let raw := Nat.toDigits 10 v.mantissa
    let digits := (stripZeros raw).1
    let zeros ← difference? raw.length digits.length
    let zeros ← wordExponent? zeros
    let exponent ← wordExponent? (v.exponent + zeros)
    let unsigned ← placePointInWords digits exponent
    return String.ofList (if v.negative then '-' :: unsigned else unsigned)

/-- The point falls on one of the digits or before them. -/
theorem placePointInWords_eq {digits : List Char} {e : Int} (hlength : digits.length < 2 ^ 62)
    (he : -2 ^ 62 ≤ e) : placePointInWords digits e = some (placePoint digits e) := by
  rw [placePointInWords, placePoint]
  split
  · rfl
  · have hcount : wordExponent? (digits.length : Int) = some (digits.length : Int) :=
      wordExponent?_eq_some (by omega) (by omega)
    have hpoint : wordExponent? (digits.length + e) = some (digits.length + e) :=
      wordExponent?_eq_some (by omega) (by omega)
    have hgap : wordExponent? (-(digits.length + e)) = some (-(digits.length + e)) :=
      wordExponent?_eq_some (by omega) (by omega)
    simp only [hcount, hpoint, hgap, Option.bind_eq_bind, Option.bind_some]
    split
    · rw [splitAt?, if_pos (by omega)]
      rfl
    · rfl

/-- Writing in words is writing. -/
theorem toTextInWords_eq {v : IssuedValue} (h : v.IsNormal) :
    toTextInWords v = some v.toText := by
  obtain rfl | ⟨hv, hmin, hmax, hlow, hhigh⟩ := h.cases
  · rfl
  · obtain ⟨digits, zeros, hraw, hsignificant, -, hcount, -⟩ := exists_digits hmin hmax
    unfold minExponent at hlow
    unfold maxExponent at hhigh
    unfold precision at hcount
    have hstrip := stripZeros_append_zeros hsignificant.trimmed zeros
    have hdifference : difference? (digits ++ List.replicate zeros '0').length digits.length =
        some zeros := by
      rw [List.length_append, List.length_replicate, difference?, if_pos (by omega),
        Nat.add_sub_cancel_left]
    have hzeros : wordExponent? (zeros : Int) = some (zeros : Int) :=
      wordExponent?_eq_some (by omega) (by omega)
    have hexponent : wordExponent? (v.exponent + zeros) = some (v.exponent + zeros) :=
      wordExponent?_eq_some (by omega) (by omega)
    rw [toTextInWords, toText, hv, if_neg Bool.false_ne_true, if_neg Bool.false_ne_true]
    simp only [hraw, hstrip, hdifference, hzeros, hexponent, Option.bind_eq_bind, Option.bind_some]
    rw [placePointInWords_eq (by omega) (by omega)]
    rfl

/-! ### What is written -/

/-- The text of a number in normal form is a decimal text in plain notation. -/
theorem exists_isPlain {v : IssuedValue} (h : v.IsNormal) :
    ∃ t : DecimalText, t.text = v.toText ∧ t.IsPlain := by
  obtain rfl | ⟨hv, hmin, hmax, -, -⟩ := h.cases
  · let whole : DecimalText.Digits := ⟨['0'], List.forall_mem_singleton.2 rfl⟩
    let digit : DecimalText := .ofPlaces false whole none (List.cons_ne_nil _ _)
    have hchars : digit.chars = ['0'] := rfl
    have hzero : zero.isZero = true := rfl
    refine ⟨digit, ?_, DecimalText.isPlain_ofPlaces (.inl rfl) nofun⟩
    rw [DecimalText.text, hchars, toText, if_pos hzero]
  · obtain ⟨digits, zeros, hraw, hsignificant, hdigits, -, -⟩ := exists_digits hmin hmax
    obtain ⟨t, ht⟩ := exists_isPlaced hdigits hsignificant v.negative (v.exponent + zeros)
    refine ⟨t, ?_, ht.plain⟩
    rw [DecimalText.text, ht.chars, toText, hv, if_neg Bool.false_ne_true, hraw,
      stripZeros_append_zeros hsignificant.trimmed]

/-- **Writing is exact and reversible.** A number that was read or unpacked is written in words
without overflow, zero as a single digit. Its text is in plain notation, denotes the number, and
reads back to it. -/
theorem toText_exact {v : IssuedValue}
    (h : (∃ text, ofText text = .ok v) ∨ ∃ bits < 2 ^ 64, ofBits bits = .ok v) :
    toTextInWords v = some v.toText ∧ (v.isZero = true → v.toText = "0") ∧
      (∃ t : DecimalText, t.text = v.toText ∧ t.IsPlain ∧ t.value = v.toRat) ∧
      ofText v.toText = .ok v := by
  have hnormal : v.IsNormal := by
    obtain ⟨text, htext⟩ | ⟨bits, hbits, hunpack⟩ := h
    · exact isNormal_of_ofText htext
    · exact (toBits_of_ofBits (hbits.trans_eq (by decide)) hunpack).2
  have hback := ofText_toText hnormal
  obtain ⟨t, ht, hplain⟩ := exists_isPlain hnormal
  refine ⟨toTextInWords_eq hnormal, fun hzero => ?_, ⟨t, ht, hplain, ?_⟩, hback⟩
  · rw [toText, if_pos hzero]
  · rw [← ht] at hback
    exact (toRat_of_ofText hback).symm

theorem toText_exact_eightieth : (∃ text, ofText text = .ok ⟨true, 1250000000000000, -17⟩) ∧
    toTextInWords ⟨true, 1250000000000000, -17⟩ = some "-0.0125" ∧
    ∃ t : DecimalText, t.text = "-0.0125" ∧ t.IsPlain ∧
      t.value = IssuedValue.toRat ⟨true, 1250000000000000, -17⟩ := by
  have hread : ∃ text, ofText text = .ok ⟨true, 1250000000000000, -17⟩ := ⟨"-12.50e-3", rfl⟩
  obtain ⟨hwords, -, hplain, -⟩ := toText_exact (.inl hread)
  exact ⟨hread, hwords, hplain⟩

end FieldWire.IssuedValue
