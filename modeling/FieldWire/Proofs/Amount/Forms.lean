import FieldWire.Proofs.Amount.Basic
import FieldWire.Proofs.Wire.Writing

/-!
# The two ways to an amount

Amounts are built from plain values and from bytes, and the checks on the two ways are written
apart. They admit the same amounts, which are the proper ones, and each of these has one plain form
and one written form, from which it is built again (`Amount.forms_exact`).

The written form is eight or forty-eight bytes, as its first bit says (`Amount.IsProper.firstBit`).
That bit is the issued bit of the first word. The drops and the sign of a native amount leave it
clear, and a packed number has it set whatever its sign and exponent are.
-/

namespace FieldWire.Amount

variable {a : Amount}

/-! ### First bits -/

/-- The highest bit of a byte. -/
theorem msb_eq (b : UInt8) : b.toBitVec.msb = decide (128 ≤ b.toNat) :=
  BitVec.msb_eq_decide b.toBitVec

/-- The first bit of the bytes of a word is its issued bit. -/
theorem firstBit_word {bits : Nat} (h : bits < Nat.pow 256 8) (rest : List UInt8) :
    ((BigEndian.ofNat 8 bits ++ rest).head?.map fun b => b.toBitVec.msb) =
      some (decide (¬bits / IssuedValue.issuedBit % 2 = 0)) := by
  rw [BigEndian.ofNat_succ, List.cons_append, List.head?_cons, Option.map_some, msb_eq]
  congr 1
  rw [decide_eq_decide, ← first_lt_iff h, Nat.not_lt]

/-- The first bit of a proper amount tells whether it is issued. -/
theorem IsProper.firstBit (h : a.IsProper) :
    (a.bytes.head?.map fun b => b.toBitVec.msb) = some (!a.isNative) := by
  cases a with
  | native drops negative =>
    have hclear := (nativeOfBits_nativeBits h).1
    have hword : nativeBits drops negative / IssuedValue.issuedBit % 2 = 0 := by
      rw [Nat.div_eq_of_lt hclear]
    have hbit := firstBit_word (hclear.trans (by decide)) []
    rw [List.append_nil, decide_eq_false (not_not_intro hword)] at hbit
    exact hbit
  | issued value currency issuer =>
    have hbit := firstBit_word (IssuedValue.toBits_lt h.1) (currency.bytes.toList ++ issuer.toList)
    rw [decide_eq_true (IssuedValue.issued_toBits h.1), ← List.append_assoc] at hbit
    exact hbit

theorem length_bytes (a : Amount) : a.bytes.length = if a.isNative then 8 else 48 := by
  cases a with
  | native _ _ => exact BigEndian.length_ofNat _ _
  | issued _ _ _ => simp [bytes, isNative]

/-! ### Building and building again -/

/-- The amount was built from a plain value or from bytes. -/
def IsBuilt (a : Amount) : Prop :=
  (∃ book j, ofJson book j = .ok a) ∨ ∃ length c d, read length c = .ok a d

/-- The amount has a written form and a plain form, and is built from either. -/
structure HasForms (a : Amount) : Prop where
  /-- It is written as its bytes. -/
  toBytes_eq : (Value.amount a).toBytes = .ok a.bytes
  /-- These are eight or forty-eight. -/
  length_eq : a.bytes.length = if a.isNative then 8 else 48
  /-- The first bit says which. -/
  firstBit : (a.bytes.head?.map fun b => b.toBitVec.msb) = some (!a.isNative)
  /-- It is read from its bytes, whatever follows, behind their length or without one. -/
  reads : ∀ depth length, (∀ n, length = some n → n = a.bytes.length) →
    (read length).Reads depth a.bytes a
  /-- It is read from its plain form. -/
  ofJson_toJson : ofJson .hex (a.toJson .hex) = .ok a

theorem hasForms_of_isProper (h : a.IsProper) : a.HasForms where
  toBytes_eq := by rw [Value.toBytes, Value.write, Writer.run_append]
  length_eq := length_bytes a
  firstBit := h.firstBit
  reads _ _ hlength := reads_read h hlength
  ofJson_toJson := ofJson_toJson h

/-- What was read is proper, and the bytes that were taken are its own. -/
theorem of_read {length : Option Nat} {c d : Cursor} (h : read length c = .ok a d) :
    a.IsProper ∧ c.rest = a.bytes ++ d.rest := by
  obtain ⟨taken, hrest, -, -, rfl, hproper⟩ := yields_read length c a d rfl h
  exact ⟨hproper, hrest⟩

theorem isProper_of_isBuilt (h : a.IsBuilt) : a.IsProper := by
  obtain ⟨_, _, hplain⟩ | ⟨_, _, _, hread⟩ := h
  · exact isProper_of_ofJson hplain
  · exact (of_read hread).1

/-- **Both ways lead to the same amounts.** What is built from a plain value or from bytes is proper
and has both forms; what is read is written as the bytes that were taken. Either way alone leads to
every proper amount. A text is read as a native amount exactly if it is a text of drops that are not
too many, and as the number that it denotes. -/
theorem forms_exact :
    (∀ a : Amount, a.IsBuilt → a.IsProper ∧ a.HasForms) ∧
    (∀ length c (a : Amount) d, read length c = .ok a d → c.rest = a.bytes ++ d.rest) ∧
    (∀ a : Amount, a.IsProper →
      (∃ j, ofJson .hex j = .ok a) ∧ ∃ c d, read none c = .ok a d) ∧
    ∀ book text (a : Amount), ofJson book (.str text) = .ok a ↔
      ∃ t : DropsText, t.text = text ∧ t.value.natAbs ≤ maxDrops ∧ a = ofSignedDrops t.value := by
  refine ⟨fun a ha => ?_, fun length c a d hread => (of_read hread).2, fun a ha => ?_,
    fun book text a => nativeOfText_eq_ok_iff⟩
  · have hproper := isProper_of_isBuilt ha
    exact ⟨hproper, hasForms_of_isProper hproper⟩
  · have hread : (read none).Reads 0 a.bytes a := reads_read ha nofun
    exact ⟨⟨_, ofJson_toJson ha⟩, _, _, hread [] 0⟩

theorem forms_exact_debt : (native 25 true).IsBuilt ∧ (native 25 true).HasForms ∧
    (native 25 true).bytes = [0, 0, 0, 0, 0, 0, 0, 25] ∧
    ∃ t : DropsText, t.text = "-25" ∧ native 25 true = ofSignedDrops t.value := by
  have hread : ofJson .hex (.str "-25") = .ok (native 25 true) := by rfl
  have hbuilt : (native 25 true).IsBuilt := .inl ⟨_, _, hread⟩
  obtain ⟨hforms, -, -, htexts⟩ := forms_exact
  obtain ⟨t, ht, -, hvalue⟩ := (htexts _ _ _).1 hread
  exact ⟨hbuilt, (hforms _ hbuilt).2, rfl, t, ht, hvalue⟩

end FieldWire.Amount
