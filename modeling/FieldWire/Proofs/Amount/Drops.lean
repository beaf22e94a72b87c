import FieldWire.Amount.Basic
import FieldWire.Proofs.Amount.DecimalText
import FieldWire.Proofs.Outcome

/-!
# Texts of native amounts

A text of drops is a row of digits behind a minus sign or none. `DropsText` is such a text in its
parts, and denotes an integer. A text is read as a native amount exactly if it is one of these and
does not denote more drops than there can be, and then the amount is the integer that it denotes
(`Amount.nativeOfText_eq_ok_iff`). The two bounds that a reader checks on the way, that of words and
that of drops, are one, because the second is the smaller.
-/

namespace FieldWire

/-- A text of drops in its parts. -/
structure DropsText where
  /-- Whether there is a minus sign. -/
  minus : Bool
  /-- The digits. -/
  digits : DecimalText.Digits
  /-- There is a digit. -/
  ne_nil : digits.chars ≠ []

namespace DropsText

/-- The minus sign, if there is one. -/
def signChars (minus : Bool) : List Char := if minus then ['-'] else []

/-- The text. -/
def text (t : DropsText) : String := String.ofList (signChars t.minus ++ t.digits.chars)

/-- The number that the text denotes. -/
def value (t : DropsText) : Int := if t.minus then -(t.digits.value : Int) else t.digits.value

end DropsText

namespace Amount

/-- The native amount of a number of drops. -/
def ofSignedDrops (drops : Int) : Amount := native drops.natAbs (drops < 0)

theorem checkDrops_eq_ok_iff {drops : Nat} : checkDrops drops = .ok () ↔ drops ≤ maxDrops := by
  unfold checkDrops
  split
  · next h => exact ⟨nofun, fun h' => absurd h (Nat.not_lt.2 h')⟩
  · next h => exact ⟨fun _ => Nat.not_lt.1 h, fun _ => rfl⟩

/-- A minus sign is split off, and nothing else is. -/
theorem eq_of_splitMinus {cs digits : List Char} {minus : Bool}
    (h : splitMinus cs = (minus, digits)) : cs = DropsText.signChars minus ++ digits := by
  unfold splitMinus at h
  split at h
  · cases h
    rfl
  · cases h
    rfl

/-- A digit is no minus sign. -/
theorem splitMinus_chars (minus : Bool) {digits : List Char}
    (hdigits : ∀ c ∈ digits, c.isDigit = true) :
    splitMinus (DropsText.signChars minus ++ digits) = (minus, digits) := by
  cases minus with
  | true => rfl
  | false =>
    cases digits with
    | nil => rfl
    | cons c rest =>
      have hc : c ≠ '-' := by
        rintro rfl
        exact absurd (hdigits '-' List.mem_cons_self) (by decide)
      change splitMinus (c :: rest) = (false, c :: rest)
      unfold splitMinus
      split
      · next heq => exact absurd (List.cons.inj heq).1 hc
      · rfl

/-- Sign and size are those of the number. -/
theorem ofSignedDrops_value (t : DropsText) : ofSignedDrops t.value =
    native t.digits.value (t.minus && t.digits.value ≠ 0) := by
  rw [ofSignedDrops, DropsText.value]
  cases t.minus with
  | true =>
    have hsign : decide (-(t.digits.value : Int) < 0) = decide (t.digits.value ≠ 0) := by
      rw [decide_eq_decide]
      omega
    rw [if_pos rfl, Int.natAbs_neg, Int.natAbs_natCast, hsign, Bool.true_and]
  | false =>
    have hsign : decide ((t.digits.value : Int) < 0) = false := by
      rw [decide_eq_false_iff_not]
      omega
    rw [if_neg Bool.false_ne_true, Int.natAbs_natCast, hsign, Bool.false_and]

/-- A text of drops is read if they are not too many, as the number that it denotes. -/
theorem nativeOfText_eq_ok_iff {text : String} {a : Amount} : nativeOfText text = .ok a ↔
    ∃ t : DropsText, t.text = text ∧ t.value.natAbs ≤ maxDrops ∧ a = ofSignedDrops t.value := by
  have hsize : ∀ t : DropsText, t.value.natAbs = t.digits.value := fun t =>
    (native.inj (ofSignedDrops_value t)).1
  constructor
  · intro h
    rcases hsplit : splitMinus text.toList with ⟨minus, digits⟩
    simp only [nativeOfText, hsplit] at h
    split at h
    · cases h
    · next hdigits =>
      rw [not_or, Decidable.not_not, List.all_eq_true, List.isEmpty_iff] at hdigits
      split at h
      · cases h
      · obtain ⟨_, hdrops, h⟩ := bind_eq_ok_iff.1 h
        cases h
        let t : DropsText := ⟨minus, ⟨digits, hdigits.2⟩, hdigits.1⟩
        refine ⟨t, ?_, (hsize t).trans_le (checkDrops_eq_ok_iff.1 hdrops),
          (ofSignedDrops_value t).symm⟩
        rw [DropsText.text, ← eq_of_splitMinus hsplit, String.ofList_toList]
  · rintro ⟨t, rfl, hdrops, rfl⟩
    rw [hsize] at hdrops
    have hsplit : splitMinus t.text.toList = (t.minus, t.digits.chars) := by
      rw [DropsText.text, String.toList_ofList]
      exact splitMinus_chars t.minus t.digits.isDigit
    have hall : t.digits.chars.all Char.isDigit = true := List.all_eq_true.2 t.digits.isDigit
    have hsome : t.digits.chars.isEmpty = false := List.isEmpty_eq_false_iff.2 t.ne_nil
    have hword : ¬Text.maxUInt64 < Nat.ofDigitChars 10 t.digits.chars 0 :=
      Nat.not_lt.2 (hdrops.trans (by decide))
    rw [ofSignedDrops_value]
    simp only [nativeOfText, hsplit, hall, hsome, Bool.false_eq_true, not_true_eq_false, or_self,
      if_false, if_neg hword]
    exact bind_eq_ok_iff.2 ⟨(), checkDrops_eq_ok_iff.2 hdrops, rfl⟩

end Amount

end FieldWire
