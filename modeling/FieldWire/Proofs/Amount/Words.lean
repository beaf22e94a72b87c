import FieldWire.Proofs.Amount.Exactness

/-!
# Reading in words of 64 bits

Numbers are read here once more with every number in a word of 64 bits: `IssuedValue.ofTextInWords`
has no result where an operation leaves its word or scaling does not end. For texts that are not
absurdly long it has one, which is that of reading with numbers of any size
(`IssuedValue.ofTextInWords_eq`). What could overflow is small in each place: lengths are those of
parts of the text, digits are read when there are at most sixteen, and a number is scaled after its
exponent was found close to the range and while its digits are less than sixteen.

With what decimal texts denote this gives the whole of what reading does
(`IssuedValue.ofText_exact`).
-/

namespace FieldWire.IssuedValue

/-! ### Operations on words -/

/-- An unsigned number that fits a word of 64 bits. -/
def unsignedWord? (n : Nat) : Option Nat := if n ≤ Text.maxUInt64 then some n else none

/-- The difference of two unsigned numbers that is not negative. -/
def difference? (m n : Nat) : Option Nat := if n ≤ m then some (m - n) else none

/-- An exponent that fits a signed word of 32 bits. -/
def shortExponent? (e : Int) : Option Int :=
  if -2147483648 ≤ e ∧ e ≤ 2147483647 then some e else none

theorem wordExponent?_eq_some {e : Int} (hlow : -9223372036854775808 ≤ e)
    (hhigh : e ≤ 9223372036854775807) : wordExponent? e = some e := by
  rw [wordExponent?, if_pos (Text.isInt64_iff.2 ⟨hlow, hhigh⟩)]

/-! ### Reading -/

/-- Scales a mantissa in words, in at most `rounds` rounds. -/
def scaleInWords (rounds : Nat) (mantissa : Nat) (exponent : Int) : Option (Nat × Int) :=
  if mantissa < minMantissa then
    match rounds with
    | 0 => none
    | rounds + 1 => do
      let m ← unsignedWord? (mantissa * 10)
      let e ← wordExponent? (exponent - 1)
      scaleInWords rounds m e
  else some (mantissa, exponent)

/-- Brings a number to normal form in words. -/
def normalizeInWords (negative : Bool) (mantissa : Nat) (exponent : Int) :
    Option (Except ValueFault IssuedValue) :=
  if mantissa = 0 then some (.ok zero)
  else do
    let least ← wordExponent? (minExponent - precision)
    let greatest ← wordExponent? (maxExponent + precision)
    if ¬(least ≤ exponent ∧ exponent ≤ greatest) then return .error (.exponentRange exponent)
    else
      let (m, e) ← scaleInWords precision mantissa exponent
      if maxMantissa < m then return .error .tooManyDigits
      else if ¬(minExponent ≤ e ∧ e ≤ maxExponent) then return .error (.exponentRange e)
      else
        let e ← shortExponent? e
        return .ok ⟨negative, m, e⟩

/-- Takes a decimal text apart in words; there may be nothing to find. -/
def partsInWords? (cs : List Char) : Option (Option (Bool × List Char × Int)) :=
  let (negative, unsigned) := Text.splitSign cs
  match splitExponent unsigned with
  | none => some none
  | some (number, exponent) =>
    let (whole, fraction) := splitPoint number
    let digits := whole ++ fraction
    if digits.isEmpty ∨ ¬digits.all Char.isDigit then some none
    else do
      let places ← wordExponent? fraction.length
      return (wordExponent? (exponent - places)).map fun last => (negative, digits, last)

/-- Reads a decimal text in words. -/
def ofTextInWords (text : String) : Option (Except ValueFault IssuedValue) := do
  match ← partsInWords? text.toList with
  | none => return .error (.notDecimal text)
  | some (negative, digits, last) =>
    let significant := digits.dropWhile (· = '0')
    if significant.isEmpty then return .ok zero
    else
      let trimmed := (stripZeros significant).1
      let zeros ← difference? significant.length trimmed.length
      let zeros ← wordExponent? zeros
      match wordExponent? (last + zeros) with
      | none => return .error (.notDecimal text)
      | some exponent =>
        if precision < trimmed.length then return .error (.tooManyDigitsIn text)
        else
          match (Text.readUnsigned 10 Text.maxUInt64 trimmed).toOption with
          | none => return .error (.notDecimal text)
          | some mantissa => normalizeInWords negative mantissa exponent

/-! ### Nothing overflows -/

/-- A mantissa that is scaled is small, and the exponent is lowered by no more than the rounds. -/
theorem scaleInWords_eq {rounds m : Nat} {e : Int} (hm : minMantissa ≤ m * 10 ^ rounds)
    (hlow : -9223372036854775808 ≤ e - rounds) (hhigh : e ≤ 9223372036854775807) :
    scaleInWords rounds m e = some (scale rounds m e) := by
  induction rounds generalizing m e with
  | zero =>
    rw [pow_zero, Nat.mul_one] at hm
    rw [scaleInWords, if_neg (Nat.not_lt.2 hm), scale]
  | succ rounds ih =>
    rw [scaleInWords, scale]
    split
    · next hsmall =>
      have hword : unsignedWord? (m * 10) = some (m * 10) := by
        unfold minMantissa at hsmall
        rw [unsignedWord?, Text.maxUInt64, if_pos (by omega)]
      have hrest : minMantissa ≤ m * 10 * 10 ^ rounds := by rwa [mul_assoc, ← pow_succ']
      rw [hword, wordExponent?_eq_some (by omega) (by omega)]
      exact ih hrest (by omega) (by omega)
    · rfl

theorem normalizeInWords_eq (negative : Bool) (m : Nat) (e : Int) :
    normalizeInWords negative m e = some (normalize negative m e) := by
  by_cases hm : m = 0
  · rw [normalizeInWords, normalize, if_pos hm, if_pos hm]
  · have hbounds : wordExponent? (minExponent - precision) = some (minExponent - precision) ∧
        wordExponent? (maxExponent + precision) = some (maxExponent + precision) := by decide
    rw [normalizeInWords, normalize, if_neg hm, if_neg hm, hbounds.1, hbounds.2]
    simp only [Option.bind_eq_bind, Option.bind_some, Option.pure_def]
    split
    · rfl
    · next hrange =>
      obtain ⟨hlow, hhigh⟩ := Decidable.not_not.1 hrange
      have hscale : scaleInWords precision m e = some (scale precision m e) := by
        unfold minExponent at hlow
        unfold maxExponent at hhigh
        unfold precision at hlow hhigh ⊢
        refine scaleInWords_eq ?_ (by omega) (by omega)
        rw [minMantissa]
        omega
      rw [hscale, Option.bind_some]
      split
      · rfl
      · split
        · rfl
        · next hexponent =>
          obtain ⟨hleast, hgreatest⟩ := Decidable.not_not.1 hexponent
          unfold minExponent at hleast
          unfold maxExponent at hgreatest
          rw [shortExponent?, if_pos (by omega)]
          rfl

/-- The parts of a text are no longer than the text. -/
theorem length_splitPoint_le {cs number : List Char} {e : Int}
    (h : splitExponent (Text.splitSign cs).2 = some (number, e)) :
    (splitPoint number).2.length ≤ cs.length := by
  have hsign : (Text.splitSign cs).2.length ≤ cs.length := by
    unfold Text.splitSign
    split
    · exact Nat.le_succ _
    · exact Nat.le_succ _
    · exact le_rfl
  have hexponent : number.length ≤ (Text.splitSign cs).2.length := by
    rw [splitExponent, List.span_eq_takeWhile_dropWhile] at h
    dsimp only at h
    split at h
    · cases h
      exact (List.takeWhile_sublist _).length_le
    · obtain ⟨_, -, hparts⟩ := Option.map_eq_some_iff.1 h
      cases hparts
      exact (List.takeWhile_sublist _).length_le
  have hpoint : (splitPoint number).2.length ≤ number.length := by
    rw [splitPoint, List.span_eq_takeWhile_dropWhile]
    exact ((List.drop_sublist _ _).trans (List.dropWhile_sublist _)).length_le
  exact hpoint.trans (hexponent.trans hsign)

/-- Lengths of parts of the text are all that is added to the exponent here. -/
theorem partsInWords?_eq {cs : List Char} (h : cs.length < 2 ^ 62) :
    partsInWords? cs = some (parts? cs) := by
  obtain ⟨⟨negative, unsigned⟩, hsign⟩ : ∃ parts, Text.splitSign cs = parts := ⟨_, rfl⟩
  cases hexponent : splitExponent unsigned with
  | none => simp only [partsInWords?, parts?, hsign, hexponent, Option.bind_eq_bind,
      Option.bind_none]
  | some parts =>
    obtain ⟨number, exponent⟩ := parts
    obtain ⟨⟨whole, fraction⟩, hpoint⟩ : ∃ parts, splitPoint number = parts := ⟨_, rfl⟩
    have hplaces : fraction.length ≤ cs.length := by
      have hfind : splitExponent (Text.splitSign cs).2 = some (number, exponent) := by
        rw [hsign]
        exact hexponent
      have hle := length_splitPoint_le hfind
      rwa [hpoint] at hle
    have hword : wordExponent? (fraction.length : Int) = some (fraction.length : Int) :=
      wordExponent?_eq_some (by omega) (by omega)
    simp only [partsInWords?, parts?, hsign, hexponent, hpoint, hword, Option.bind_eq_bind,
      Option.bind_some]
    split
    · rfl
    · cases wordExponent? (exponent - fraction.length) <;> rfl

/-- A mantissa of few digits is a word. -/
theorem readUnsigned_digits {digits : List Char} (hdigits : ∀ c ∈ digits, c.isDigit = true)
    (hne : digits ≠ []) (hlength : digits.length ≤ precision) :
    (Text.readUnsigned 10 Text.maxUInt64 digits).toOption =
      some (Nat.ofDigitChars 10 digits 0) := by
  have hlt := (ofDigitChars_lt hdigits).trans_le (Nat.pow_le_pow_right (by decide) hlength)
  have hmax : 10 ^ precision ≤ Text.maxUInt64 := by decide
  rw [Text.readUnsigned_of_digits hdigits hne, Text.readDigits_of_digits (Nat.zero_le _) hdigits,
    if_pos (by omega)]

/-- What is taken from a text are digits of the text. -/
theorem digits_of_parts? {cs digits : List Char} {negative : Bool} {last : Int}
    (h : parts? cs = some (negative, digits, last)) :
    (∀ c ∈ digits, c.isDigit = true) ∧ digits.length ≤ cs.length := by
  obtain ⟨t, rfl⟩ := exists_of_parts? h
  rw [parts?_chars] at h
  split_ifs at h
  obtain ⟨e, -, hparts⟩ := Option.map_eq_some_iff.1 h
  cases hparts
  exact ⟨fun _ => DecimalText.isDigit_of_mem_digits, length_digits_le t⟩

/-- Reading in words is reading. -/
theorem ofTextInWords_eq {text : String} (hlength : text.toList.length < 2 ^ 62) :
    ofTextInWords text = some (ofText text) := by
  rw [ofTextInWords, partsInWords?_eq hlength, Option.bind_eq_bind, Option.bind_some]
  cases hparts : parts? text.toList with
  | none => rw [ofText, hparts]; rfl
  | some parts =>
    obtain ⟨negative, digits, last⟩ := parts
    obtain ⟨hdigits, hcount⟩ := digits_of_parts? hparts
    obtain ⟨zeros, rfl⟩ | ⟨front, trimmed, back, rfl, hsignificant⟩ := exists_significant digits
    · rw [ofText_of_zeros hparts]
      simp
    · have hisDigit : ∀ c ∈ trimmed, c.isDigit = true := fun c hc =>
        hdigits c (List.mem_append_right _ (List.mem_append_left _ hc))
      have hsome : (trimmed ++ List.replicate back '0').isEmpty = false :=
        List.isEmpty_eq_false_iff.2 (List.append_ne_nil_of_left_ne_nil hsignificant.ne_nil _)
      simp only [List.length_append, List.length_replicate] at hcount
      have hdifference : difference? (trimmed ++ List.replicate back '0').length trimmed.length =
          some back := by
        rw [List.length_append, List.length_replicate, difference?, if_pos (by omega),
          Nat.add_sub_cancel_left]
      have hback : wordExponent? (back : Int) = some (back : Int) :=
        wordExponent?_eq_some (by omega) (by omega)
      rw [ofText_of_parts? hsignificant hparts]
      simp only [hsignificant.dropWhile, hsome, stripZeros_append_zeros hsignificant.trimmed,
        hdifference, hback, Option.bind_eq_bind, Option.bind_some, Bool.false_eq_true, if_false]
      cases wordExponent? (last + back) with
      | none => rfl
      | some exponent =>
        dsimp only
        split
        · rfl
        · next hfew =>
          rw [readUnsigned_digits hisDigit hsignificant.ne_nil (Nat.not_lt.1 hfew)]
          exact normalizeInWords_eq negative _ exponent

/-! ### What reading does -/

/-- A number of exactly sixteen digits and an exponent in range. -/
def IsRepresentable (q : ℚ) : Prop :=
  ∃ (negative : Bool) (m : Nat) (e : Int), (minMantissa ≤ m ∧ m ≤ maxMantissa) ∧
    (minExponent ≤ e ∧ e ≤ maxExponent) ∧ q = signed negative (m * 10 ^ e)

/-- The representable numbers are those that numbers in normal form denote, apart from zero. -/
theorem isRepresentable_iff {q : ℚ} (hq : q ≠ 0) :
    IsRepresentable q ↔ ∃ v : IssuedValue, v.IsNormal ∧ v.toRat = q := by
  constructor
  · rintro ⟨negative, m, e, ⟨hmin, hmax⟩, ⟨hleast, hgreatest⟩, rfl⟩
    exact ⟨⟨negative, m, e⟩, .inr ⟨hmin, hmax, hleast, hgreatest⟩, rfl⟩
  · rintro ⟨v, rfl | ⟨hmin, hmax, hleast, hgreatest⟩, hv⟩
    · exact absurd (hv.symm.trans toRat_zero) hq
    · exact ⟨v.negative, v.mantissa, v.exponent, ⟨hmin, hmax⟩, ⟨hleast, hgreatest⟩, hv.symm⟩

/-- A text has no more characters than bytes. -/
theorem length_toList_le (text : String) : text.toList.length ≤ text.utf8ByteSize := by
  have hchars : ∀ cs : List Char, cs.length ≤ (String.ofList cs).utf8ByteSize := by
    intro cs
    induction cs with
    | nil => exact Nat.zero_le _
    | cons c rest ih =>
      have hc := Char.utf8Size_pos c
      rw [String.ofList_cons, String.utf8ByteSize_append, String.utf8ByteSize_singleton,
        List.length_cons]
      omega
  have htext := hchars text.toList
  rwa [String.ofList_toList] at htext

/-- **Reading is exact.** Nothing overflows on the way. What is read is in normal form, was given by
a decimal text and denotes the same number as that text. A decimal text that does not denote zero
is read exactly if its written exponent fits a word and its number is representable. -/
theorem ofText_exact {text : String} (hsize : text.utf8ByteSize < 2 ^ 62) :
    ofTextInWords text = some (ofText text) ∧
    (∀ v, ofText text = .ok v → v.IsNormal ∧ (∃ t : DecimalText, t.text = text) ∧
      ∀ t : DecimalText, t.text = text → v.toRat = t.value) ∧
    ∀ t : DecimalText, t.text = text → t.value ≠ 0 →
      ((∃ v, ofText text = .ok v) ↔
        Text.isInt64 t.exponentValue = true ∧ IsRepresentable t.value) := by
  have hlength := (length_toList_le text).trans_lt hsize
  refine ⟨ofTextInWords_eq hlength, fun v hv => ?_, ?_⟩
  · refine ⟨isNormal_of_ofText hv, exists_of_ofText hv, ?_⟩
    rintro t rfl
    exact toRat_of_ofText hv
  · rintro t rfl hne
    rw [DecimalText.text, String.toList_ofList] at hlength
    rw [isRepresentable_iff hne]
    constructor
    · rintro ⟨v, hv⟩
      exact ⟨(isInt64_of_ofText hv).1, v, isNormal_of_ofText hv, toRat_of_ofText hv⟩
    · rintro ⟨hexponent, v, hnormal, hv⟩
      exact ⟨v, ofText_of_toRat_eq hlength hexponent hnormal hne hv⟩

theorem ofText_exact_eightieth : "-12.50e-3".utf8ByteSize < 2 ^ 62 ∧
    ofTextInWords "-12.50e-3" = some (.ok ⟨true, 1250000000000000, -17⟩) ∧
    ∃ t : DecimalText, t.text = "-12.50e-3" ∧ t.value = -1 / 80 := by
  have hsize : "-12.50e-3".utf8ByteSize < 2 ^ 62 := by decide
  have hread : ofText "-12.50e-3" = .ok ⟨true, 1250000000000000, -17⟩ := by rfl
  obtain ⟨hwords, hsound, -⟩ := ofText_exact hsize
  obtain ⟨-, ⟨t, ht⟩, hvalue⟩ := hsound _ hread
  refine ⟨hsize, hwords.trans (congrArg some hread), t, ht, ?_⟩
  rw [← hvalue t ht]
  norm_num [toRat, signed]

end FieldWire.IssuedValue
