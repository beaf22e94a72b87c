import FieldWire.Amount.Issued
import Mathlib.Tactic.ByContra
import Mathlib.Tactic.SplitIfs

/-!
# Decimal numbers as words

A decimal number in normal form is the only one with its packed form: packing can be undone
(`IssuedValue.ofBits_toBits`), and a word that can be unpacked is the packed form of what it unpacks
to (`IssuedValue.toBits_of_ofBits`). The bits of a packed number do not overlap, so the word is a
sum (`IssuedValue.toBits_eq`), and its parts are quotients and remainders.

Normal form itself is reached from any digits by scaling; `IssuedValue.isNormal_of_normalize` says
that the result is in normal form, and `IssuedValue.normalize_mul` that zeros which were moved from
the digits to the exponent come back.
-/

namespace FieldWire.IssuedValue

/-! ### Normal form -/

private theorem ne_zero_of_minMantissa_le {m : Nat} (h : minMantissa ≤ m) : m ≠ 0 := by
  rintro rfl
  exact absurd h (by decide)

/-- Zero is the only number in normal form without digits. -/
theorem IsNormal.cases {v : IssuedValue} (h : v.IsNormal) : v = zero ∨
    (v.isZero = false ∧ minMantissa ≤ v.mantissa ∧ v.mantissa ≤ maxMantissa ∧
      minExponent ≤ v.exponent ∧ v.exponent ≤ maxExponent) := by
  refine h.imp_right fun hrange => ⟨?_, hrange⟩
  exact decide_eq_false (ne_zero_of_minMantissa_le hrange.1)

/-- Scaling stops at enough digits if there are steps enough. -/
theorem minMantissa_le_scale {steps m : Nat} {e : Int}
    (h : minMantissa ≤ m * Nat.pow 10 steps) : minMantissa ≤ (scale steps m e).1 := by
  induction steps generalizing m e with
  | zero => rwa [scale, ← Nat.mul_one m]
  | succ steps ih =>
    rw [scale]
    split
    · refine ih ?_
      rwa [Nat.mul_assoc, Nat.mul_comm 10]
    · next hlarge => exact Nat.not_lt.1 hlarge

/-- A number that is brought to normal form is in it. -/
theorem isNormal_of_normalize {negative : Bool} {mantissa : Nat} {exponent : Int} {v : IssuedValue}
    (h : normalize negative mantissa exponent = .ok v) : v.IsNormal := by
  unfold normalize at h
  split at h
  · cases h
    exact .inl rfl
  · next hzero =>
    split at h
    · cases h
    · dsimp only at h
      have hmin : minMantissa ≤ (scale precision mantissa exponent).1 := by
        refine minMantissa_le_scale ?_
        have hpow : Nat.pow 10 precision = 10000000000000000 := rfl
        rw [hpow, minMantissa]
        omega
      split_ifs at h with hmax hexponent
      cases h
      exact .inr ⟨hmin, Nat.not_lt.1 hmax, hexponent.1, hexponent.2⟩

/-- Scaling moves zeros from the exponent to digits that lack them. -/
theorem scale_mul {steps zeros m : Nat} (hzeros : zeros ≤ steps) (e : Int)
    (hmin : minMantissa ≤ m * Nat.pow 10 zeros) (hmax : m * Nat.pow 10 zeros ≤ maxMantissa) :
    scale steps m (e + zeros) = (m * Nat.pow 10 zeros, e) := by
  induction zeros generalizing steps m with
  | zero =>
    have hm : m * Nat.pow 10 0 = m := Nat.mul_one m
    rw [hm] at hmin ⊢
    cases steps with
    | zero => simp [scale]
    | succ steps => simp [scale, Nat.not_lt.2 hmin]
  | succ zeros ih =>
    obtain ⟨steps, rfl⟩ : ∃ n, steps = n + 1 := ⟨steps - 1, by omega⟩
    have hpow : m * Nat.pow 10 (zeros + 1) = m * 10 * Nat.pow 10 zeros := by
      rw [Nat.mul_assoc, Nat.mul_comm 10]
      rfl
    have hpos : 0 < Nat.pow 10 zeros := Nat.pow_pos (by decide)
    have hsmall : m < minMantissa := by
      have hle := Nat.le_mul_of_pos_right (m * 10) hpos
      rw [hpow] at hmax
      unfold maxMantissa at hmax
      unfold minMantissa
      omega
    have he : e + ((zeros + 1 : Nat) : Int) - 1 = e + zeros := by omega
    rw [hpow] at hmin hmax ⊢
    rw [scale, if_pos hsmall, he, ih (by omega) hmin hmax]

/-- Zeros at the end of the digits may stand in the exponent instead. -/
theorem normalize_mul {v : IssuedValue} (h : v.IsNormal) (hv : v.isZero = false)
    {m zeros : Nat} (hm : m * Nat.pow 10 zeros = v.mantissa) (hzeros : zeros ≤ precision) :
    normalize v.negative m (v.exponent + zeros) = .ok v := by
  obtain rfl | ⟨hmin, hmax, hlow, hhigh⟩ := h
  · cases hv
  · have hne : m ≠ 0 := by
      rintro rfl
      rw [Nat.zero_mul] at hm
      rw [← hm] at hmin
      exact absurd hmin (by decide)
    have hrange : minExponent - precision ≤ v.exponent + zeros ∧
        v.exponent + zeros ≤ maxExponent + precision := by omega
    rw [← hm] at hmin hmax
    rw [normalize, if_neg hne, if_neg (not_not_intro hrange), scale_mul hzeros _ hmin hmax]
    dsimp only
    rw [if_neg (Nat.not_lt.2 hmax), if_neg (not_not_intro ⟨hlow, hhigh⟩), hm]

/-- Digits that are many enough stay as they are. -/
theorem eq_of_normalize {negative : Bool} {m : Nat} {e : Int} {v : IssuedValue}
    (hmin : minMantissa ≤ m) (h : normalize negative m e = .ok v) : v = ⟨negative, m, e⟩ := by
  have hne := ne_zero_of_minMantissa_le hmin
  have hscale : scale precision m e = (m, e) := by
    rw [show precision = 15 + 1 from rfl, scale, if_neg (Nat.not_lt.2 hmin)]
  rw [normalize, if_neg hne, hscale] at h
  dsimp only at h
  split_ifs at h
  cases h
  rfl

/-! ### The parts of a word -/

/-- The bits of a packed number do not overlap. -/
theorem toBits_eq {v : IssuedValue} (hv : v.isZero = false) (hmax : v.mantissa ≤ maxMantissa)
    (hhigh : v.exponent ≤ maxExponent) : v.toBits =
      (if v.negative then 9223372036854775808 else 13835058055282163712) +
        (v.exponent + exponentBias).toNat * 18014398509481984 + v.mantissa := by
  have hmantissa : v.mantissa < Nat.pow 2 54 := by
    rw [show Nat.pow 2 54 = 18014398509481984 from rfl]
    unfold maxMantissa at hmax
    omega
  have hexponent : (v.exponent + exponentBias).toNat < Nat.pow 2 8 := by
    rw [show Nat.pow 2 8 = 256 from rfl]
    unfold maxExponent at hhigh
    unfold exponentBias
    omega
  -- disjoint bits are added, so the word is a sum of three digits in mixed base
  have hsign : ∀ sign : Nat, sign <<< 62 ||| (v.exponent + exponentBias).toNat <<< 54 |||
      v.mantissa = sign * 4611686018427387904 +
        (v.exponent + exponentBias).toNat * 18014398509481984 + v.mantissa := by
    intro sign
    rw [show sign <<< 62 = sign <<< 8 <<< 54 by rw [← Nat.shiftLeft_add],
      ← Nat.shiftLeft_or_distrib, ← Nat.shiftLeft_add_eq_or_of_lt hexponent,
      ← Nat.shiftLeft_add_eq_or_of_lt hmantissa, Nat.shiftLeft_eq, Nat.shiftLeft_eq]
    omega
  rw [toBits, hv, if_neg Bool.false_ne_true]
  cases v.negative with
  | true => exact hsign 2
  | false => exact hsign 3

theorem toBits_zero : zero.toBits = issuedBit := rfl

theorem toBits_lt {v : IssuedValue} (h : v.IsNormal) : v.toBits < Nat.pow 256 8 := by
  rw [show Nat.pow 256 8 = 18446744073709551616 from rfl]
  obtain rfl | ⟨hv, hmin, hmax, hlow, hhigh⟩ := h.cases
  · decide
  · rw [toBits_eq hv hmax hhigh]
    unfold maxMantissa at hmax
    unfold maxExponent at hhigh
    unfold exponentBias
    split <;> omega

/-- A packed number is marked as issued. -/
theorem issued_toBits {v : IssuedValue} (h : v.IsNormal) : ¬v.toBits / issuedBit % 2 = 0 := by
  unfold issuedBit
  obtain rfl | ⟨hv, hmin, hmax, hlow, hhigh⟩ := h.cases
  · decide
  · rw [toBits_eq hv hmax hhigh]
    unfold maxMantissa at hmax
    unfold maxExponent at hhigh
    unfold exponentBias
    split <;> omega

/-- The number of a word is told by its sign bit, its exponent and its digits. -/
private theorem ofBits_sum {bits sign exponent mantissa : Nat}
    (hbits : bits = sign * 4611686018427387904 + exponent * 18014398509481984 + mantissa)
    (hsign : 2 ≤ sign ∧ sign ≤ 3) (hexponent : exponent < 256) (hmin : minMantissa ≤ mantissa)
    (hmax : mantissa ≤ maxMantissa) :
    ofBits bits = normalize (sign = 2) mantissa (exponent - exponentBias) := by
  have hlow : mantissa < 18014398509481984 := by
    unfold maxMantissa at hmax
    omega
  have hissued : ¬bits / issuedBit % 2 = 0 := by
    unfold issuedBit
    omega
  have hmantissa : bits % (1 <<< exponentShift) = mantissa := by
    rw [show 1 <<< exponentShift = 18014398509481984 from rfl]
    omega
  have hne : ¬mantissa = 0 := ne_zero_of_minMantissa_le hmin
  have hshift : bits >>> exponentShift % 256 = exponent := by
    rw [Nat.shiftRight_eq_div_pow]
    change bits / 18014398509481984 % 256 = exponent
    omega
  have hpositive : (bits / positiveBit % 2 = 0) = (sign = 2) := by
    unfold positiveBit
    refine propext ⟨fun h => ?_, fun h => ?_⟩ <;> omega
  rw [ofBits, if_neg hissued]
  simp only [hmantissa, if_neg hne, if_neg (not_not_intro (And.intro hmin hmax)), hshift, hpositive]

/-- Packing can be undone. -/
theorem ofBits_toBits {v : IssuedValue} (h : v.IsNormal) : ofBits v.toBits = .ok v := by
  obtain rfl | ⟨hv, hmin, hmax, hlow, hhigh⟩ := h.cases
  · rfl
  · have hexponent : (v.exponent + exponentBias).toNat < 256 := by
      unfold maxExponent at hhigh
      unfold exponentBias
      omega
    have hback : ((v.exponent + exponentBias).toNat : Int) - exponentBias =
        v.exponent + (0 : Nat) := by
      unfold minExponent at hlow
      unfold exponentBias
      omega
    have hsum : v.toBits = (if v.negative then 2 else 3) * 4611686018427387904 +
        (v.exponent + exponentBias).toNat * 18014398509481984 + v.mantissa := by
      rw [toBits_eq hv hmax hhigh]
      cases v.negative <;> rfl
    have hnegative : decide ((if v.negative = true then 2 else 3) = 2) = v.negative := by
      cases v.negative <;> rfl
    rw [ofBits_sum hsum (by split <;> omega) hexponent hmin hmax, hback, hnegative]
    exact normalize_mul h hv (Nat.mul_one _) (by decide)

/-- A word that can be unpacked is the packed form of what it unpacks to. -/
theorem toBits_of_ofBits {bits : Nat} (hbits : bits < Nat.pow 256 8) {v : IssuedValue}
    (h : ofBits bits = .ok v) : v.toBits = bits ∧ v.IsNormal := by
  rw [show Nat.pow 256 8 = 18446744073709551616 from rfl] at hbits
  have hsplit : bits = bits / 4611686018427387904 * 4611686018427387904 +
      bits / 18014398509481984 % 256 * 18014398509481984 + bits % 18014398509481984 := by omega
  have hunpack := h
  unfold ofBits at h
  rw [show 1 <<< exponentShift = 18014398509481984 from rfl] at h
  split at h
  · cases h
  · next hissued =>
    have hsign : 2 ≤ bits / 4611686018427387904 ∧ bits / 4611686018427387904 ≤ 3 := by
      unfold issuedBit at hissued
      omega
    dsimp only at h
    split at h
    · split at h
      · next hzero =>
        cases h
        exact ⟨by rw [toBits_zero, hzero], .inl rfl⟩
      · cases h
    · split at h
      · cases h
      · next hrange =>
        obtain ⟨hmin, hmax⟩ := Decidable.not_not.1 hrange
        -- the digits are already many enough, so bringing them to normal form changes nothing
        rw [ofBits_sum hsplit hsign (Nat.mod_lt _ (by decide)) hmin hmax] at hunpack
        have hnormal := isNormal_of_normalize hunpack
        obtain rfl := eq_of_normalize hmin hunpack
        refine ⟨?_, hnormal⟩
        obtain hzero | ⟨hv, -, -, hlow, hhigh⟩ := hnormal.cases
        · exact absurd (congrArg IssuedValue.mantissa hzero) (ne_zero_of_minMantissa_le hmin)
        · have hexponent : ((((bits / 18014398509481984 % 256 : Nat) : Int) - exponentBias) +
              exponentBias).toNat = bits / 18014398509481984 % 256 := by omega
          rw [toBits_eq hv hmax hhigh]
          simp only [hexponent, decide_eq_true_eq]
          split <;> omega

end FieldWire.IssuedValue
