import FieldWire.Amount.Issued
import Mathlib.Data.List.TakeDrop
import Mathlib.Data.List.TakeWhile
import Mathlib.Tactic.SplitIfs

/-!
# Decimal texts

A *decimal text* has a sign or none, digits with at most one point among them, and an exponent or
none. `DecimalText` is such a text in its parts, so that a text that is none cannot be built.

Taking a text apart looks at its characters only, and does not know of this grammar. It finds the
parts of every decimal text whose exponent fits a word (`DecimalText.parts?_chars`), and finds
nothing in any other text (`DecimalText.exists_of_parts?`).
-/

namespace FieldWire

/-! ### Decimal texts -/

namespace DecimalText

/-- Decimal digits in a row. -/
structure Digits where
  /-- The characters. -/
  chars : List Char
  /-- Each of them is a digit. -/
  isDigit : ∀ c ∈ chars, c.isDigit = true

/-- The number that the digits denote. -/
def Digits.value (digits : Digits) : Nat := Nat.ofDigitChars 10 digits.chars 0

/-- The sign in front of a number, if one is written. -/
inductive Sign where
  /-- No sign. -/
  | none
  /-- A plus sign. -/
  | plus
  /-- A minus sign. -/
  | minus
deriving DecidableEq

namespace Sign

/-- The sign as it is written. -/
def chars : Sign → List Char
  | none => []
  | plus => ['+']
  | minus => ['-']

/-- Whether the sign makes a number negative. -/
def isMinus : Sign → Bool
  | minus => true
  | none | plus => false

end Sign

/-- An exponent behind its mark. -/
structure Exponent where
  /-- The letter that announces the exponent. -/
  mark : Char
  /-- The letter is an `e` of either case. -/
  isMark : mark = 'e' ∨ mark = 'E'
  /-- The sign. -/
  sign : Sign
  /-- The digits. -/
  digits : Digits
  /-- There is a digit. -/
  ne_nil : digits.chars ≠ []

namespace Exponent

/-- The exponent as it is written. -/
def chars (e : Exponent) : List Char := e.mark :: (e.sign.chars ++ e.digits.chars)

/-- The number that the exponent denotes. -/
def value (e : Exponent) : Int :=
  if e.sign.isMinus then -(e.digits.value : Int) else e.digits.value

end Exponent

end DecimalText

open DecimalText in
/-- A decimal text in its parts. -/
structure DecimalText where
  /-- The sign. -/
  sign : Sign
  /-- The digits before the point, or all of them. -/
  whole : Digits
  /-- The digits behind the point, if there is one. -/
  fraction : Option Digits
  /-- The exponent, if there is one. -/
  exponent : Option Exponent
  /-- There is a digit. -/
  some_digit : whole.chars = [] → ∃ digits, fraction = some digits ∧ digits.chars ≠ []

namespace DecimalText

/-- The digits behind the point. -/
def places (t : DecimalText) : List Char := (t.fraction.map Digits.chars).getD []

/-- All digits without the point. -/
def digits (t : DecimalText) : List Char := t.whole.chars ++ t.places

/-- The point with the digits behind it. -/
def pointed (t : DecimalText) : List Char := (t.fraction.map fun f => '.' :: f.chars).getD []

/-- The exponent as it is written. -/
def exponentChars (t : DecimalText) : List Char := (t.exponent.map Exponent.chars).getD []

/-- The characters of a decimal text. -/
def chars (t : DecimalText) : List Char :=
  t.sign.chars ++ (t.whole.chars ++ t.pointed ++ t.exponentChars)

/-- A decimal text as a text. -/
def text (t : DecimalText) : String := String.ofList t.chars

/-- The number that the exponent denotes, zero where there is none. -/
def exponentValue (t : DecimalText) : Int := (t.exponent.map Exponent.value).getD 0

theorem isDigit_of_mem_places {t : DecimalText} {c : Char} (h : c ∈ t.places) :
    c.isDigit = true := by
  unfold places at h
  cases hfraction : t.fraction with
  | none =>
    rw [hfraction] at h
    cases h
  | some f =>
    rw [hfraction] at h
    exact f.isDigit c h

theorem isDigit_of_mem_digits {t : DecimalText} {c : Char} (h : c ∈ t.digits) :
    c.isDigit = true :=
  (List.mem_append.1 h).elim (t.whole.isDigit c) isDigit_of_mem_places

theorem digits_ne_nil (t : DecimalText) : t.digits ≠ [] := by
  intro hnil
  obtain ⟨hwhole, hplaces⟩ := List.append_eq_nil_iff.1 hnil
  obtain ⟨f, hf, hne⟩ := t.some_digit hwhole
  rw [places, hf] at hplaces
  exact hne hplaces

end DecimalText

/-! ### Numerals -/

namespace Text

open DecimalText

theorem isInt64_iff {n : Int} :
    isInt64 n = true ↔ -9223372036854775808 ≤ n ∧ n ≤ 9223372036854775807 := by
  rw [isInt64, maxInt64, Bool.and_eq_true, decide_eq_true_eq, decide_eq_true_eq]
  exact Iff.rfl

theorem digitValue?_of_isDigit {c : Char} (h : c.isDigit = true) :
    digitValue? c = some (c.toNat - '0'.toNat) ∧ c.toNat - '0'.toNat < 10 := by
  have hrange : 48 ≤ c.toNat ∧ c.toNat ≤ 57 := Char.isDigit_iff_toNat.1 h
  have hzero : '0'.toNat = 48 := rfl
  rw [digitValue?, if_pos hrange, hzero]
  exact ⟨rfl, by omega⟩

theorem isDigit_of_digitValue? {c : Char} {d : Nat} (h : digitValue? c = some d) (hd : d < 10) :
    c.isDigit = true := by
  have hrange : 48 ≤ c.toNat ∧ c.toNat ≤ 57 := by
    unfold digitValue? at h
    dsimp only at h
    split_ifs at h with hdigit hupper hlower
    · exact hdigit
    · cases h
      omega
    · cases h
      omega
  exact Char.isDigit_iff_toNat.2 hrange

theorem le_ofDigitChars (cs : List Char) (n : Nat) : n ≤ Nat.ofDigitChars 10 cs n := by
  rw [Nat.ofDigitChars_eq_ofDigitChars_zero]
  exact Nat.le_add_right_of_le (Nat.le_mul_of_pos_left n (Nat.pow_pos (by decide)))

/-- Digits are read as the number that they denote, if that is not too large. -/
theorem readDigits_of_digits {limit n : Nat} {cs : List Char} (hn : n ≤ limit)
    (h : ∀ c ∈ cs, c.isDigit = true) : (readDigits 10 limit n cs).toOption =
      if Nat.ofDigitChars 10 cs n ≤ limit then some (Nat.ofDigitChars 10 cs n) else none := by
  induction cs generalizing n with
  | nil =>
    rw [Nat.ofDigitChars_nil, if_pos hn]
    rfl
  | cons c rest ih =>
    obtain ⟨hc, hrest⟩ := List.forall_mem_cons.1 h
    obtain ⟨hvalue, hlt⟩ := digitValue?_of_isDigit hc
    have hgrows := le_ofDigitChars rest (10 * n + (c.toNat - '0'.toNat))
    rw [readDigits, hvalue, Nat.ofDigitChars_cons, Nat.mul_comm n 10]
    dsimp only
    rw [if_pos hlt]
    split
    · next hle => exact ih hle hrest
    · next hlarge =>
      rw [if_neg (by omega)]
      rfl

theorem isDigit_of_readDigits {limit n m : Nat} {cs : List Char}
    (h : readDigits 10 limit n cs = .ok m) : ∀ c ∈ cs, c.isDigit = true := by
  induction cs generalizing n with
  | nil => exact List.forall_mem_nil _
  | cons c rest ih =>
    rw [readDigits] at h
    split at h
    · cases h
    · next d hd =>
      split_ifs at h with hlt hle
      exact List.forall_mem_cons.2 ⟨isDigit_of_digitValue? hd hlt, ih h⟩

/-- A sign is none of the digits. -/
private theorem ne_sign_of_isDigit {c : Char} (h : c.isDigit = true) : c ≠ '-' ∧ c ≠ '+' := by
  constructor
  · rintro rfl
    exact absurd h (by decide)
  · rintro rfl
    exact absurd h (by decide)

theorem readUnsigned_of_digits {limit : Nat} {cs : List Char} (h : ∀ c ∈ cs, c.isDigit = true)
    (hne : cs ≠ []) : readUnsigned 10 limit cs = readDigits 10 limit 0 cs := by
  obtain ⟨c, rest, rfl⟩ := List.exists_cons_of_ne_nil hne
  obtain ⟨-, hplus⟩ := ne_sign_of_isDigit (h c List.mem_cons_self)
  unfold readUnsigned
  split
  · next heq => cases heq
  · next heq => exact absurd (List.cons.inj heq).1 hplus
  · next heq => exact absurd (List.cons.inj heq).1 hplus
  · rfl

/-- An exponent is read as the number that it denotes, if that fits a word. -/
theorem int64?_chars (e : Exponent) : int64? (e.sign.chars ++ e.digits.chars) =
    if isInt64 e.value then some e.value else none := by
  have hdigits := e.digits.isDigit
  obtain ⟨c, rest, hchars⟩ := List.exists_cons_of_ne_nil e.ne_nil
  have hread : ∀ limit, (readDigits 10 limit 0 e.digits.chars).toOption =
      if e.digits.value ≤ limit then some e.digits.value else none := fun limit =>
    readDigits_of_digits (Nat.zero_le limit) hdigits
  have hunsigned : ∀ limit, readUnsigned 10 limit e.digits.chars =
      readDigits 10 limit 0 e.digits.chars := fun _ => readUnsigned_of_digits hdigits e.ne_nil
  have hfits : ∀ n : Nat, isInt64 (n : Int) = decide (n ≤ maxInt64) := by
    intro n
    rw [Bool.eq_iff_iff, isInt64_iff, decide_eq_true_eq, maxInt64]
    omega
  have hfits' : ∀ n : Nat, isInt64 (-(n : Int)) = decide (n ≤ maxInt64 + 1) := by
    intro n
    rw [Bool.eq_iff_iff, isInt64_iff, decide_eq_true_eq, maxInt64]
    omega
  unfold Exponent.value
  cases hsign : e.sign with
  | none =>
    obtain ⟨hminus, -⟩ := ne_sign_of_isDigit (hdigits c (hchars ▸ List.mem_cons_self))
    have hint : int64? e.digits.chars =
        (readUnsigned 10 maxInt64 e.digits.chars).toOption.map Int.ofNat := by
      rw [hchars]
      unfold int64?
      split
      · next heq => exact absurd (List.cons.inj heq).1 hminus
      · next heq => exact absurd (List.cons.inj heq).1 hminus
      · rfl
    rw [Sign.chars, List.nil_append, hint, hunsigned, hread, Sign.isMinus,
      if_neg Bool.false_ne_true, hfits]
    split <;> simp_all
  | plus =>
    have hint : int64? ('+' :: e.digits.chars) =
        (readDigits 10 maxInt64 0 e.digits.chars).toOption.map Int.ofNat := by
      rw [hchars]
      rfl
    rw [Sign.chars, List.singleton_append, hint, hread, Sign.isMinus, if_neg Bool.false_ne_true,
      hfits]
    split <;> simp_all
  | minus =>
    have hint : int64? ('-' :: e.digits.chars) =
        (readDigits 10 (maxInt64 + 1) 0 e.digits.chars).toOption.map fun n => -(n : Int) := by
      rw [hchars]
      rfl
    rw [Sign.chars, List.singleton_append, hint, hread, Sign.isMinus, if_pos rfl, hfits']
    split <;> simp_all

/-- What is read as an exponent is a sign or none and digits. -/
theorem exists_of_int64? {cs : List Char} {n : Int} (h : int64? cs = some n) :
    ∃ (sign : Sign) (digits : Digits), digits.chars ≠ [] ∧ cs = sign.chars ++ digits.chars := by
  have hdigits : ∀ {limit cs m}, (readDigits 10 limit 0 cs).toOption = some m →
      ∀ c ∈ cs, c.isDigit = true := by
    intro limit cs m hread
    cases hresult : readDigits 10 limit 0 cs with
    | error fault =>
      rw [hresult] at hread
      cases hread
    | ok k => exact isDigit_of_readDigits hresult
  unfold int64? at h
  split at h
  · cases h
  · next digits hne =>
    obtain ⟨m, hm, -⟩ := Option.map_eq_some_iff.1 h
    obtain ⟨k, hk, -⟩ := Option.bind_eq_some_iff.1 hm
    exact ⟨.minus, ⟨digits, hdigits hk⟩, hne, rfl⟩
  · obtain ⟨m, hm, -⟩ := Option.map_eq_some_iff.1 h
    unfold readUnsigned at hm
    split at hm
    · cases hm
    · cases hm
    · next digits hne _ _ => exact ⟨.plus, ⟨digits, hdigits hm⟩, hne, rfl⟩
    · next hne _ _ => exact ⟨.none, ⟨cs, hdigits hm⟩, hne, rfl⟩

end Text

/-! ### Taking a text apart -/

namespace IssuedValue

open DecimalText

private theorem isExponentMark_eq_false {c : Char} (h : c.isDigit = true ∨ c = '.') :
    isExponentMark c = false := by
  rw [isExponentMark, Bool.or_eq_false_iff, decide_eq_false_iff_not, decide_eq_false_iff_not]
  constructor
  · rintro rfl
    exact absurd h (by decide)
  · rintro rfl
    exact absurd h (by decide)

/-- Before its exponent a text has digits and points. -/
private theorem digit_or_point {t : DecimalText} {c : Char} (h : c ∈ t.whole.chars ++ t.pointed) :
    c.isDigit = true ∨ c = '.' := by
  rcases List.mem_append.1 h with hwhole | hpointed
  · exact .inl (t.whole.isDigit c hwhole)
  · unfold pointed at hpointed
    cases hfraction : t.fraction with
    | none =>
      rw [hfraction] at hpointed
      cases hpointed
    | some f =>
      rw [hfraction] at hpointed
      exact (List.mem_cons.1 hpointed).elim .inr fun hc => .inl (f.isDigit c hc)

private theorem splitSign_chars (t : DecimalText) : Text.splitSign t.chars =
    (t.sign.isMinus, t.whole.chars ++ t.pointed ++ t.exponentChars) := by
  unfold chars
  cases t.sign with
  | plus => rfl
  | minus => rfl
  | none =>
    -- the first character is a digit or the point
    have hne : t.whole.chars ++ t.pointed ≠ [] := by
      intro hnil
      obtain ⟨hwhole, hpointed⟩ := List.append_eq_nil_iff.1 hnil
      obtain ⟨f, hf, -⟩ := t.some_digit hwhole
      rw [pointed, hf] at hpointed
      cases hpointed
    obtain ⟨c, rest, hcons⟩ := List.exists_cons_of_ne_nil hne
    have hc := digit_or_point (t := t) (hcons ▸ List.mem_cons_self)
    rw [hcons, Sign.chars, List.nil_append, List.cons_append, Sign.isMinus]
    unfold Text.splitSign
    split
    · next heq =>
      cases heq
      exact absurd hc (by decide)
    · next heq =>
      cases heq
      exact absurd hc (by decide)
    · rfl

/-- The exponent is found behind the first mark. -/
private theorem splitExponent_chars (t : DecimalText) :
    splitExponent (t.whole.chars ++ t.pointed ++ t.exponentChars) =
      if Text.isInt64 t.exponentValue then some (t.whole.chars ++ t.pointed, t.exponentValue)
      else none := by
  have hmarks : ∀ c ∈ t.whole.chars ++ t.pointed, (!isExponentMark c) = true := by
    intro c hc
    rw [isExponentMark_eq_false (digit_or_point hc), Bool.not_false]
  rw [splitExponent, List.span_eq_takeWhile_dropWhile, List.takeWhile_append_of_pos hmarks,
    List.dropWhile_append_of_pos hmarks]
  unfold exponentChars exponentValue
  cases t.exponent with
  | none =>
    rw [Option.map_none, Option.map_none, Option.getD_none, Option.getD_none,
      if_pos (by decide)]
    simp
  | some e =>
    have hmark : (!isExponentMark e.mark) = false := by
      rcases e.isMark with hmark | hmark <;> rw [hmark] <;> rfl
    rw [Option.map_some, Option.map_some, Option.getD_some, Option.getD_some, Exponent.chars,
      List.takeWhile_cons_of_neg (by rw [hmark]; exact Bool.false_ne_true),
      List.dropWhile_cons_of_neg (by rw [hmark]; exact Bool.false_ne_true), List.append_nil]
    dsimp only
    rw [Text.int64?_chars]
    split <;> rfl

/-- The point is found behind the digits before it. -/
private theorem splitPoint_chars (t : DecimalText) :
    splitPoint (t.whole.chars ++ t.pointed) = (t.whole.chars, t.places) := by
  have hdigits : ∀ c ∈ t.whole.chars, decide (c ≠ '.') = true := by
    intro c hc
    refine decide_eq_true ?_
    rintro rfl
    exact absurd (t.whole.isDigit _ hc) (by decide)
  rw [splitPoint, List.span_eq_takeWhile_dropWhile, List.takeWhile_append_of_pos hdigits,
    List.dropWhile_append_of_pos hdigits]
  unfold pointed places
  cases t.fraction with
  | none => simp
  | some f => simp

/-- Of a decimal text the sign, the digits and the power of ten of the last of them are found, if
its exponent and that power fit a word. -/
theorem parts?_chars (t : DecimalText) : parts? t.chars =
    if Text.isInt64 t.exponentValue then
      (wordExponent? (t.exponentValue - t.places.length)).map fun e =>
        (t.sign.isMinus, t.digits, e)
    else none := by
  have hsome : (t.whole.chars ++ t.places).isEmpty = false :=
    List.isEmpty_eq_false_iff.2 t.digits_ne_nil
  have hdigits : (t.whole.chars ++ t.places).all Char.isDigit = true :=
    List.all_eq_true.2 fun _ hc => isDigit_of_mem_digits hc
  simp only [parts?, splitSign_chars, splitExponent_chars]
  split
  · simp only [Option.bind_eq_bind, Option.bind_some, splitPoint_chars, hsome, hdigits, digits,
      Bool.false_eq_true, not_true_eq_false, or_self, if_false]
    cases wordExponent? (t.exponentValue - t.places.length) <;> rfl
  · rfl

private theorem exists_of_splitSign (cs : List Char) :
    ∃ sign : Sign, cs = sign.chars ++ (Text.splitSign cs).2 := by
  unfold Text.splitSign
  split
  · exact ⟨.minus, rfl⟩
  · exact ⟨.plus, rfl⟩
  · exact ⟨.none, rfl⟩

private theorem exists_of_splitExponent {cs number : List Char} {e : Int}
    (h : splitExponent cs = some (number, e)) :
    ∃ exponent : Option Exponent, cs = number ++ (exponent.map Exponent.chars).getD [] := by
  have hsplit := (List.takeWhile_append_dropWhile (p := fun c => !isExponentMark c) (l := cs)).symm
  rw [splitExponent, List.span_eq_takeWhile_dropWhile] at h
  dsimp only at h
  split at h
  · next hrest =>
    cases h
    refine ⟨none, ?_⟩
    rw [hrest] at hsplit
    exact hsplit
  · next mark rest hrest =>
    obtain ⟨n, hn, heq⟩ := Option.map_eq_some_iff.1 h
    cases heq
    obtain ⟨sign, digits, hne, rfl⟩ := Text.exists_of_int64? hn
    -- what ends the digits is the mark
    have hmark : isExponentMark mark = true := by
      have hhead := List.head?_dropWhile_not (fun c => !isExponentMark c) cs
      rw [hrest] at hhead
      simpa using hhead
    have hcases : mark = 'e' ∨ mark = 'E' := by
      rwa [isExponentMark, Bool.or_eq_true, decide_eq_true_eq, decide_eq_true_eq] at hmark
    refine ⟨some ⟨mark, hcases, sign, digits, hne⟩, ?_⟩
    rw [hrest] at hsplit
    exact hsplit

private theorem exists_of_splitPoint {cs whole fraction : List Char}
    (h : splitPoint cs = (whole, fraction)) (hdigits : ∀ c ∈ fraction, c.isDigit = true) :
    ∃ digits : Option Digits, fraction = (digits.map Digits.chars).getD [] ∧
      cs = whole ++ (digits.map fun f => '.' :: f.chars).getD [] := by
  have hsplit := (List.takeWhile_append_dropWhile (p := fun c => decide (c ≠ '.')) (l := cs)).symm
  have hhead := List.head?_dropWhile_not (fun c => decide (c ≠ '.')) cs
  rw [splitPoint, List.span_eq_takeWhile_dropWhile] at h
  cases h
  generalize cs.dropWhile (fun c => decide (c ≠ '.')) = rest at hsplit hhead hdigits ⊢
  cases rest with
  | nil => exact ⟨none, rfl, hsplit⟩
  | cons c rest =>
    obtain rfl : c = '.' := by simpa using hhead
    exact ⟨some ⟨rest, hdigits⟩, rfl, hsplit⟩

/-- Only decimal texts can be taken apart. -/
theorem exists_of_parts? {cs : List Char} {p : Bool × List Char × Int} (h : parts? cs = some p) :
    ∃ t : DecimalText, t.chars = cs := by
  unfold parts? at h
  obtain ⟨⟨number, e⟩, hexponent, h⟩ := Option.bind_eq_some_iff.1 h
  obtain ⟨⟨whole, places⟩, hpoint⟩ : ∃ parts, splitPoint number = parts := ⟨_, rfl⟩
  simp only [hpoint] at h
  split_ifs at h with hdigits
  obtain ⟨hne, hall⟩ := not_or.1 hdigits
  have hisDigit := List.all_eq_true.1 (Decidable.not_not.1 hall)
  obtain ⟨sign, hsign⟩ := exists_of_splitSign cs
  obtain ⟨exponent, hunsigned⟩ := exists_of_splitExponent hexponent
  obtain ⟨fraction, rfl, hnumber⟩ := exists_of_splitPoint hpoint
    fun c hc => hisDigit c (List.mem_append_right _ hc)
  have hsome : whole = [] → ∃ digits, fraction = some digits ∧ digits.chars ≠ [] := by
    rintro rfl
    cases fraction with
    | none => exact absurd rfl hne
    | some f =>
      refine ⟨f, rfl, fun hnil => hne ?_⟩
      rw [List.isEmpty_iff]
      exact hnil
  let t : DecimalText :=
    ⟨sign, ⟨whole, fun c hc => hisDigit c (List.mem_append_left _ hc)⟩, fraction, exponent, hsome⟩
  have ht : t.chars = cs := by
    calc t.chars = sign.chars ++ (number ++ (exponent.map Exponent.chars).getD []) := by
          rw [hnumber]
          rfl
      _ = sign.chars ++ (Text.splitSign cs).2 := congrArg (sign.chars ++ ·) hunsigned.symm
      _ = cs := hsign.symm
  exact ⟨t, ht⟩

end IssuedValue

end FieldWire
