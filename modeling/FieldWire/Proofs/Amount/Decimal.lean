import FieldWire.Proofs.Amount.DecimalText
import FieldWire.Proofs.Amount.Packed
import Mathlib.Data.List.Basic

/-!
# Decimal numbers as texts

The text of a number in normal form reads back as that number (`IssuedValue.ofText_toText`).
Wherever the point stands in the text, the digits without it are those of the number without zeros
at the end, between zeros that do not count: some in front, where the number is small, and some
behind, where it is large (`IssuedValue.exists_isPlaced`). Reading drops both
(`IssuedValue.ofText_of_parts?`), and normal form restores the zeros at the end.

The text is *plain* (`DecimalText.IsPlain`): it has no exponent and no digit could be left out.
-/

namespace FieldWire

namespace IssuedValue

/-! ### Zeros at the end -/

/-- The last digit is not zero. -/
def IsTrimmed (digits : List Char) : Prop := ∀ c ∈ digits.getLast?, c ≠ '0'

theorem stripZeros_append_zeros {digits : List Char} (h : IsTrimmed digits) (zeros : Nat) :
    stripZeros (digits ++ List.replicate zeros '0') = (digits, zeros) := by
  have hdrop : (digits.reverse.dropWhile (· = '0')) = digits.reverse := by
    rw [IsTrimmed, ← List.head?_reverse] at h
    cases hreverse : digits.reverse with
    | nil => rfl
    | cons c rest =>
      rw [hreverse] at h
      rw [List.dropWhile_cons_of_neg (by simpa using h c rfl)]
  rw [stripZeros, List.reverse_append, List.reverse_replicate,
    List.dropWhile_append_of_pos (by simp), hdrop, List.reverse_reverse]
  simp

/-- A text of digits is its trimmed part and the zeros behind it. -/
theorem exists_stripZeros (digits : List Char) : ∃ trimmed zeros,
    digits = trimmed ++ List.replicate zeros '0' ∧ IsTrimmed trimmed ∧
      stripZeros digits = (trimmed, zeros) := by
  suffices h : ∃ trimmed zeros, digits = trimmed ++ List.replicate zeros '0' ∧
      IsTrimmed trimmed by
    obtain ⟨trimmed, zeros, rfl, htrimmed⟩ := h
    exact ⟨trimmed, zeros, rfl, htrimmed, stripZeros_append_zeros htrimmed zeros⟩
  refine ⟨(digits.reverse.dropWhile (· = '0')).reverse,
    (digits.reverse.takeWhile (· = '0')).length, ?_, ?_⟩
  · have hzeros : (digits.reverse.takeWhile (· = '0')).reverse =
        List.replicate (digits.reverse.takeWhile (· = '0')).length '0' := by
      refine List.eq_replicate_iff.2 ⟨List.length_reverse, fun c hc => ?_⟩
      exact of_decide_eq_true
        (List.all_eq_true.1 List.all_takeWhile c (List.mem_reverse.1 hc))
    rw [← hzeros, ← List.reverse_append, List.takeWhile_append_dropWhile, List.reverse_reverse]
  · rw [IsTrimmed, List.getLast?_reverse]
    intro c hc hzero
    have hhead := List.head?_dropWhile_not (fun c => decide (c = '0')) digits.reverse
    rw [hc] at hhead
    simp [hzero] at hhead

/-- Digits that all count: neither the first nor the last of them is zero. -/
structure IsSignificant (digits : List Char) : Prop where
  /-- There is a digit. -/
  ne_nil : digits ≠ []
  /-- The first one is not zero. -/
  head : ∀ c ∈ digits.head?, c ≠ '0'
  /-- The last one is not zero. -/
  trimmed : IsTrimmed digits

/-- Digits are zeros, or those of them that count stand between zeros. -/
theorem exists_significant (cs : List Char) : (∃ zeros, cs = List.replicate zeros '0') ∨
    ∃ front digits back, cs = List.replicate front '0' ++ (digits ++ List.replicate back '0') ∧
      IsSignificant digits := by
  have hfront : cs.takeWhile (· = '0') =
      List.replicate (cs.takeWhile (· = '0')).length '0' := by
    refine List.eq_replicate_iff.2 ⟨rfl, fun c hc => ?_⟩
    exact of_decide_eq_true (List.all_eq_true.1 List.all_takeWhile c hc)
  have hsplit := (List.takeWhile_append_dropWhile (p := (· = '0')) (l := cs)).symm
  have hhead := List.head?_dropWhile_not (fun c => decide (c = '0')) cs
  rw [hfront] at hsplit
  obtain ⟨digits, back, hrest, htrimmed, -⟩ := exists_stripZeros (cs.dropWhile (· = '0'))
  rw [hrest] at hsplit hhead
  by_cases hne : digits = []
  · refine .inl ⟨(cs.takeWhile (· = '0')).length + back, ?_⟩
    rw [hne, List.nil_append, List.replicate_append_replicate] at hsplit
    exact hsplit
  · refine .inr ⟨_, digits, back, hsplit, hne, fun c hc hzero => ?_, htrimmed⟩
    rw [List.head?_append, hc] at hhead
    exact absurd hzero (of_decide_eq_false hhead)

/-- The first digit that counts is the first one that is not zero. -/
theorem IsSignificant.dropWhile {digits : List Char} (h : IsSignificant digits)
    (front back : Nat) : (List.replicate front '0' ++ (digits ++ List.replicate back '0')).dropWhile
      (· = '0') = digits ++ List.replicate back '0' := by
  obtain ⟨c, rest, rfl⟩ := List.exists_cons_of_ne_nil h.ne_nil
  have hc : c ≠ '0' := h.head c rfl
  rw [List.dropWhile_append_of_pos (by simp), List.cons_append,
    List.dropWhile_cons_of_neg (by simpa using hc)]

/-! ### Digits of numbers -/

theorem isDigit_of_mem_toDigits {n : Nat} {c : Char} (h : c ∈ Nat.toDigits 10 n) :
    c.isDigit = true :=
  Nat.isDigit_of_mem_toDigits (by decide) (by decide) h

/-- The digits of a number that is not zero start with another digit than zero. -/
theorem head?_toDigits_ne_zero {n : Nat} (hn : 0 < n) :
    ∀ c ∈ (Nat.toDigits 10 n).head?, c ≠ '0' := by
  induction n using Nat.strongRecOn with
  | ind n ih =>
    intro c hc
    by_cases hsmall : n < 10
    · rw [Nat.toDigits_of_lt_base hsmall] at hc
      cases hc
      rw [ne_eq, Nat.digitChar_eq_zero]
      omega
    · rw [Nat.toDigits_of_base_le (by decide) (by omega), List.head?_append] at hc
      cases hhead : (Nat.toDigits 10 (n / 10)).head? with
      | none => exact absurd (List.head?_eq_none_iff.1 hhead) Nat.toDigits_ne_nil
      | some d =>
        rw [hhead] at hc
        cases hc
        exact ih (n / 10) (by omega) (by omega) c hhead

/-! ### Plain notation -/

end IssuedValue

namespace DecimalText

/-- A decimal text without an exponent and without digits that could be left out. -/
structure IsPlain (t : DecimalText) : Prop where
  /-- The only sign is a minus. -/
  sign : t.sign ≠ .plus
  /-- There is no exponent. -/
  exponent : t.exponent = none
  /-- A zero stands before the point only where nothing else does. -/
  whole : t.whole.chars = ['0'] ∨ t.whole.chars ≠ [] ∧ ∀ c ∈ t.whole.chars.head?, c ≠ '0'
  /-- A point has digits behind it, and the last of them is not zero. -/
  fraction : ∀ f, t.fraction = some f → f.chars ≠ [] ∧ IssuedValue.IsTrimmed f.chars

/-- The text of digits before and behind a point, with a minus or no sign and no exponent. -/
def ofPlaces (negative : Bool) (whole : Digits) (fraction : Option Digits)
    (hne : whole.chars ≠ []) : DecimalText where
  sign := if negative then .minus else .none
  whole := whole
  fraction := fraction
  exponent := none
  some_digit := fun hnil => absurd hnil hne

variable {negative : Bool} {whole : Digits} {fraction : Option Digits} {hne : whole.chars ≠ []}

theorem isMinus_ofPlaces : (ofPlaces negative whole fraction hne).sign.isMinus = negative := by
  cases negative <;> rfl

theorem chars_ofPlaces : (ofPlaces negative whole fraction hne).chars =
    if negative then '-' :: (whole.chars ++ (fraction.map fun f => '.' :: f.chars).getD [])
    else whole.chars ++ (fraction.map fun f => '.' :: f.chars).getD [] := by
  have hexponent : (ofPlaces negative whole fraction hne).exponentChars = [] := rfl
  rw [chars, hexponent, List.append_nil]
  cases negative <;> rfl

theorem isPlain_ofPlaces
    (hwhole : whole.chars = ['0'] ∨ ∀ c ∈ whole.chars.head?, c ≠ '0')
    (hfraction : ∀ f, fraction = some f → f.chars ≠ [] ∧ IssuedValue.IsTrimmed f.chars) :
    (ofPlaces negative whole fraction hne).IsPlain where
  sign := by cases negative <;> exact nofun
  exponent := rfl
  whole := hwhole.imp_right fun hhead => ⟨hne, hhead⟩
  fraction := hfraction

end DecimalText

namespace IssuedValue

open DecimalText

/-- The text is that of digits with the point placed among them, to the right of them or to the
left. -/
structure IsPlaced (negative : Bool) (given : List Char) (e : Int) (t : DecimalText) : Prop where
  /-- The characters are those of the placed point behind the sign. -/
  chars : t.chars = if negative then '-' :: placePoint given e else placePoint given e
  /-- Nothing could be left out. -/
  plain : t.IsPlain
  /-- The sign is as it should be. -/
  sign : t.sign.isMinus = negative
  /-- The given digits stand between zeros. -/
  digits : ∃ front, t.digits = List.replicate front '0' ++ (given ++ List.replicate e.toNat '0')
  /-- There are as many places as the exponent says. -/
  places : t.places.length = (-e).toNat

section Placed

variable {digits : List Char} (hdigits : ∀ c ∈ digits, c.isDigit = true)
  (hsignificant : IsSignificant digits) {e : Int} (negative : Bool)

private theorem isDigit_of_mem_replicate (n : Nat) :
    ∀ c ∈ List.replicate n '0', c.isDigit = true := by
  intro c hc
  obtain rfl := List.eq_of_mem_replicate hc
  rfl

include hdigits hsignificant

/-- Zeros stand behind the digits, and there is no point. -/
private theorem exists_isPlaced_of_nonneg (he : 0 ≤ e) : ∃ t, IsPlaced negative digits e t := by
  let whole : Digits := ⟨digits ++ List.replicate e.toNat '0', fun c hc =>
    (List.mem_append.1 hc).elim (hdigits c) (isDigit_of_mem_replicate _ c)⟩
  have hhead : whole.chars.head? = digits.head? :=
    List.head?_append_of_ne_nil _ hsignificant.ne_nil
  have hwhole : whole.chars ≠ [] := List.append_ne_nil_of_left_ne_nil hsignificant.ne_nil _
  refine ⟨ofPlaces negative whole none hwhole, ?_,
    isPlain_ofPlaces (.inr (hhead ▸ hsignificant.head)) nofun, isMinus_ofPlaces,
    ⟨0, List.append_nil _⟩, ?_⟩
  · rw [chars_ofPlaces, placePoint, if_pos he, Option.map_none, Option.getD_none, List.append_nil]
  · change 0 = _
    omega

/-- The point stands among the digits. -/
private theorem exists_isPlaced_inside (he : e < 0) (hinside : 0 < (digits.length : Int) + e) :
    ∃ t, IsPlaced negative digits e t := by
  let point := ((digits.length : Int) + e).toNat
  let whole : Digits := ⟨digits.take point, fun c hc => hdigits c (List.mem_of_mem_take hc)⟩
  let fraction : Digits := ⟨digits.drop point, fun c hc => hdigits c (List.mem_of_mem_drop hc)⟩
  have hpoint : point ≠ 0 ∧ point < digits.length := by omega
  have hhead : whole.chars.head? = digits.head? := by
    rw [List.head?_take, if_neg hpoint.1]
  have hlast : fraction.chars.getLast? = digits.getLast? := by
    rw [List.getLast?_drop, if_neg (by omega)]
  have hwhole : whole.chars ≠ [] := by
    intro hnil
    rw [hnil, List.head?_nil, eq_comm, List.head?_eq_none_iff] at hhead
    exact hsignificant.ne_nil hhead
  have hfraction : fraction.chars ≠ [] := by
    intro hnil
    rw [hnil, List.getLast?_nil, eq_comm, List.getLast?_eq_none_iff] at hlast
    exact hsignificant.ne_nil hlast
  have hplain : ∀ f, some fraction = some f → f.chars ≠ [] ∧ IsTrimmed f.chars := by
    intro f hf
    obtain rfl := Option.some.inj hf
    exact ⟨hfraction, fun c hc => hsignificant.trimmed c (hlast ▸ hc)⟩
  refine ⟨ofPlaces negative whole (some fraction) hwhole, ?_,
    isPlain_ofPlaces (.inr (hhead ▸ hsignificant.head)) hplain, isMinus_ofPlaces, ⟨0, ?_⟩, ?_⟩
  · rw [chars_ofPlaces, placePoint, if_neg (Int.not_le.2 he)]
    simp only [if_pos hinside]
    rfl
  · rw [Int.toNat_eq_zero.2 (by omega), List.replicate_zero, List.append_nil]
    exact List.take_append_drop point digits
  · change (digits.drop point).length = _
    rw [List.length_drop]
    omega

/-- Zeros stand between the point and the digits. -/
private theorem exists_isPlaced_left (houtside : (digits.length : Int) + e ≤ 0) :
    ∃ t, IsPlaced negative digits e t := by
  have hlength := List.length_pos_iff.2 hsignificant.ne_nil
  have he : ¬0 ≤ e := by omega
  let gap := (-((digits.length : Int) + e)).toNat
  let fraction : Digits := ⟨List.replicate gap '0' ++ digits, fun c hc =>
    (List.mem_append.1 hc).elim (isDigit_of_mem_replicate _ c) (hdigits c)⟩
  have hlast : fraction.chars.getLast? = digits.getLast? :=
    List.getLast?_append_of_ne_nil _ hsignificant.ne_nil
  have hplain : ∀ f, some fraction = some f → f.chars ≠ [] ∧ IsTrimmed f.chars := by
    intro f hf
    obtain rfl := Option.some.inj hf
    exact ⟨List.append_ne_nil_of_right_ne_nil _ hsignificant.ne_nil,
      fun c hc => hsignificant.trimmed c (hlast ▸ hc)⟩
  refine ⟨ofPlaces negative ⟨['0'], isDigit_of_mem_replicate 1⟩ (some fraction)
    (List.cons_ne_nil _ _), ?_, isPlain_ofPlaces (.inl rfl) hplain, isMinus_ofPlaces,
    ⟨gap + 1, ?_⟩, ?_⟩
  · rw [chars_ofPlaces, placePoint, if_neg he]
    simp only [if_neg (Int.not_lt.2 houtside)]
    rfl
  · rw [Int.toNat_eq_zero.2 (by omega), List.replicate_zero, List.append_nil]
    change '0' :: (List.replicate gap '0' ++ digits) = _
    rw [List.replicate_succ, List.cons_append]
  · change (List.replicate gap '0' ++ digits).length = _
    rw [List.length_append, List.length_replicate]
    omega

/-- Wherever the point is placed, the text is a plain decimal text. -/
theorem exists_isPlaced (e : Int) : ∃ t, IsPlaced negative digits e t := by
  by_cases he : 0 ≤ e
  · exact exists_isPlaced_of_nonneg hdigits hsignificant negative he
  · by_cases hinside : 0 < (digits.length : Int) + e
    · exact exists_isPlaced_inside hdigits hsignificant negative (by omega) hinside
    · exact exists_isPlaced_left hdigits hsignificant negative (by omega)

end Placed

/-! ### Texts -/

/-- A number that is read is in normal form. -/
theorem isNormal_of_ofText {text : String} {v : IssuedValue} (h : ofText text = .ok v) :
    v.IsNormal := by
  unfold ofText at h
  split at h
  · cases h
  · dsimp only at h
    split at h
    · cases h
      exact .inl rfl
    · split at h
      · cases h
      · split at h
        · cases h
        · exact isNormal_of_normalize h

/-- A text that cannot be taken apart is not read. -/
theorem exists_of_ofText {text : String} {v : IssuedValue} (h : ofText text = .ok v) :
    ∃ t : DecimalText, t.text = text := by
  unfold ofText at h
  split at h
  · cases h
  · next hparts =>
    obtain ⟨t, ht⟩ := exists_of_parts? hparts
    refine ⟨t, ?_⟩
    rw [DecimalText.text, ht, String.ofList_toList]

/-- Zeros are read as zero. -/
theorem ofText_of_zeros {text : String} {negative : Bool} {zeros : Nat} {x : Int}
    (hparts : parts? text.toList = some (negative, List.replicate zeros '0', x)) :
    ofText text = .ok zero := by
  simp [ofText, hparts]

/-- Zeros around the digits that count do not count. -/
theorem ofText_of_parts? {text : String} {negative : Bool} {digits : List Char}
    {front back : Nat} {x : Int} (hdigits : IsSignificant digits)
    (hparts : parts? text.toList = some (negative,
      List.replicate front '0' ++ (digits ++ List.replicate back '0'), x)) :
    ofText text = match wordExponent? (x + back) with
      | none => .error (.notDecimal text)
      | some e =>
        if precision < digits.length then .error (.tooManyDigitsIn text)
        else normalize negative (Nat.ofDigitChars 10 digits 0) e := by
  have hsome : (digits ++ List.replicate back '0').isEmpty = false :=
    List.isEmpty_eq_false_iff.2 (List.append_ne_nil_of_left_ne_nil hdigits.ne_nil _)
  cases hword : wordExponent? (x + back) <;>
    simp only [ofText, hparts, hdigits.dropWhile, hsome, stripZeros_append_zeros hdigits.trimmed,
      hword, Bool.false_eq_true, if_false]

/-- The digits of a number in normal form, without the zeros at their end. -/
theorem exists_digits {v : IssuedValue} (hmin : minMantissa ≤ v.mantissa)
    (hmax : v.mantissa ≤ maxMantissa) : ∃ digits zeros,
      Nat.toDigits 10 v.mantissa = digits ++ List.replicate zeros '0' ∧ IsSignificant digits ∧
      (∀ c ∈ digits, c.isDigit = true) ∧ digits.length + zeros ≤ precision ∧
      Nat.ofDigitChars 10 digits 0 * Nat.pow 10 zeros = v.mantissa := by
  obtain ⟨digits, zeros, hdigits, htrimmed, -⟩ := exists_stripZeros (Nat.toDigits 10 v.mantissa)
  have hpos : 0 < v.mantissa := Nat.lt_of_lt_of_le (by decide) hmin
  have hvalue : Nat.ofDigitChars 10 digits 0 * Nat.pow 10 zeros = v.mantissa := by
    have hofDigits := @Nat.ofDigitChars_ten_toDigits v.mantissa
    rw [hdigits, Nat.ofDigitChars_append, Nat.ofDigitChars_replicate_zero, Nat.mul_comm]
      at hofDigits
    exact hofDigits
  have hne : digits ≠ [] := by
    rintro rfl
    rw [Nat.ofDigitChars_nil, Nat.zero_mul] at hvalue
    omega
  have hhead : ∀ c ∈ digits.head?, c ≠ '0' := by
    intro c hc
    refine head?_toDigits_ne_zero hpos c ?_
    rw [hdigits, List.head?_append, hc]
    rfl
  have hisDigit : ∀ c ∈ digits, c.isDigit = true := by
    intro c hc
    refine isDigit_of_mem_toDigits (n := v.mantissa) ?_
    rw [hdigits]
    exact List.mem_append_left _ hc
  have hcount := (Nat.length_toDigits_le_iff (by decide) (by decide)).2
    (show v.mantissa < Nat.pow 10 precision from Nat.lt_of_le_of_lt hmax (by decide))
  rw [hdigits, List.length_append, List.length_replicate] at hcount
  exact ⟨digits, zeros, hdigits, ⟨hne, hhead, htrimmed⟩, hisDigit, hcount, hvalue⟩

/-- The text of a number in normal form reads back. -/
theorem ofText_toText {v : IssuedValue} (h : v.IsNormal) : ofText v.toText = .ok v := by
  obtain rfl | ⟨hv, hmin, hmax, hlow, hhigh⟩ := h.cases
  · rfl
  · obtain ⟨digits, zeros, hraw, hsignificant, hdigits, hcount, hvalue⟩ :=
      exists_digits hmin hmax
    unfold minExponent at hlow
    unfold maxExponent at hhigh
    unfold precision at hcount
    -- the zeros that the text leaves out of its digits are in its exponent
    obtain ⟨t, ht⟩ := exists_isPlaced hdigits hsignificant v.negative (v.exponent + zeros)
    obtain ⟨front, htdigits⟩ := ht.digits
    have hplaces := ht.places
    have hexponent : t.exponentValue = 0 := by rw [exponentValue, ht.plain.exponent]; rfl
    have hword : wordExponent? (t.exponentValue - t.places.length) =
        some (-(t.places.length : Int)) := by
      rw [hexponent, Int.zero_sub, wordExponent?, if_pos (Text.isInt64_iff.2 (by omega))]
    have hparts : parts? v.toText.toList = some (v.negative, List.replicate front '0' ++
        (digits ++ List.replicate (v.exponent + zeros).toNat '0'), -(t.places.length : Int)) := by
      rw [toText, hv, if_neg Bool.false_ne_true, hraw, stripZeros_append_zeros hsignificant.trimmed]
      dsimp only
      rw [String.toList_ofList, ← ht.chars, parts?_chars, hword, hexponent, if_pos (by decide),
        Option.map_some, ht.sign, htdigits]
    have hsum : -(t.places.length : Int) + ((v.exponent + zeros).toNat : Int) =
        v.exponent + zeros := by omega
    rw [ofText_of_parts? hsignificant hparts, hsum, wordExponent?,
      if_pos (Text.isInt64_iff.2 (by omega))]
    dsimp only
    rw [if_neg (by unfold precision; omega)]
    exact normalize_mul h hv hvalue (by unfold precision; omega)

end IssuedValue

end FieldWire
