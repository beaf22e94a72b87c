import FieldWire.Proofs.Wire.Reading
import FieldWire.Issue
import Mathlib.Tactic.ByContra

/-!
# Accounts, currencies and assets read back

A currency that does not spell out the native code is *proper*. Both ways of obtaining a currency,
from a text and from bytes, yield proper ones only (`Currency.isProper_of_ofText`,
`Currency.yields_readChecked`), and a proper currency reads back from its text and from its bytes
(`Currency.ofText_toText`, `Currency.reads_readChecked`). An asset is proper when its currency is
and it has an issuer exactly if the currency is not the native one; the same four statements hold.
Plain values are meant with accounts as a lawful address book writes them (`AddressBook.IsLawful`).
The book of hexadecimal digits is one.
-/

namespace FieldWire

variable {depth : Nat}

/-! ### Accounts -/

namespace AddressBook

/-- Every account has an address that reads back, also where it is taken for hexadecimal digits, and
no address is extended. -/
structure IsLawful (book : AddressBook) : Prop where
  /-- The address of an account leads back to it. -/
  decode_encode : ∀ account, book.decodeAccount (book.encodeAccount account) = .ok account
  /-- An address that looks like the digits of an account is those of its own account. -/
  digits : ∀ account, isHexAccount (book.encodeAccount account) = true →
    Octets.ofHex .account 20 (book.encodeAccount account) = .ok account
  /-- There are no extended addresses. -/
  unextended : ∀ text, book.decodeExtended text = none

theorem isLawful_hex : hex.IsLawful where
  decode_encode account := Octets.ofHex_toHex _ account
  digits account _ := Octets.ofHex_toHex _ account
  unextended _ := rfl

namespace IsLawful

variable {book : AddressBook} (h : book.IsLawful)
include h

/-- The address of an account reads back. -/
theorem accountOfText_encodeAccount (account : AccountId) :
    book.accountOfText (book.encodeAccount account) = .ok account := by
  unfold accountOfText
  split
  · next hdigits => exact h.digits account hdigits
  · exact h.decode_encode account

/-- The plain form of an account reads back. -/
theorem accountOfJson_accountToJson (account : AccountId) :
    book.accountOfJson (book.accountToJson account) = .ok account := by
  simp only [accountOfJson, accountToJson, expectText, bind, Except.bind,
    h.accountOfText_encodeAccount account]

end IsLawful

end AddressBook

/-! ### Currencies -/

namespace Currency

/-- The native code is not spelled out. -/
def IsProper (c : Currency) : Prop := c.spellsNative = false

instance (c : Currency) : Decidable c.IsProper := inferInstanceAs (Decidable (_ = _))

theorem isProper_native : native.IsProper := by decide

theorem eq_native_of_isNative {c : Currency} (h : c.isNative = true) : c = native := by
  obtain ⟨⟨bytes, hlength⟩⟩ := c
  have hzero : bytes = List.replicate 20 0 := by
    refine List.eq_replicate_iff.2 ⟨hlength, ?_⟩
    simpa [isNative] using h
  subst hzero
  rfl

theorem checked_eq_ok_iff {c d : Currency} : checked c = .ok d ↔ d = c ∧ c.IsProper := by
  unfold checked IsProper
  cases h : c.spellsNative <;> simp [eq_comm]

/-! ### Standard form -/

@[simp] theorem code_standard (a b c : UInt8) : (standard a b c).code = [a, b, c] := rfl

private theorem eq_replicate_of_all_zero {bytes : List UInt8} (h : bytes.all (· = 0) = true) :
    bytes = List.replicate bytes.length 0 := by
  refine List.eq_replicate_iff.2 ⟨rfl, ?_⟩
  simpa using h

/-- A currency in standard form is that of the three bytes of its code. -/
theorem exists_eq_standard {c : Currency} (h : c.isStandard = true) :
    ∃ x y z, c = standard x y z := by
  obtain ⟨⟨bytes, hlength⟩⟩ := c
  rw [isStandard, Bool.and_eq_true] at h
  have hfront := eq_replicate_of_all_zero h.1
  have hback := eq_replicate_of_all_zero h.2
  simp only [List.length_take, List.length_drop, hlength] at hfront hback
  have hcode : ((bytes.drop 12).take 3).length = 3 := by
    simp only [List.length_take, List.length_drop, hlength]
    omega
  obtain ⟨x, y, z, hxyz⟩ : ∃ x y z, (bytes.drop 12).take 3 = [x, y, z] := by
    match hlist : (bytes.drop 12).take 3, hcode with
    | [x, y, z], _ => exact ⟨x, y, z, rfl⟩
  refine ⟨x, y, z, ?_⟩
  have hbytes : bytes = bytes.take 12 ++ ((bytes.drop 12).take 3 ++ bytes.drop 15) := by
    have hsplit := List.take_append_drop 3 (bytes.drop 12)
    rw [List.drop_drop] at hsplit
    rw [hsplit, List.take_append_drop]
  rw [hfront, hback, hxyz] at hbytes
  subst hbytes
  rfl

/-! ### Characters of codes -/

theorem toNat_charOf (b : UInt8) : (charOf b).toNat = b.toNat := by
  have hb := b.toNat_lt
  have hvalid : b.toNat.isValidChar := .inl (by omega)
  rw [charOf, Char.ofNat, dif_pos hvalid]
  rfl

theorem ofNat_toNat_charOf (b : UInt8) : UInt8.ofNat (charOf b).toNat = b := by
  rw [toNat_charOf, UInt8.ofNat_toNat]

theorem toNat_lt_of_isCodeChar {c : Char} (h : isCodeChar c = true) : c.toNat < 128 := by
  rw [isCodeChar, Bool.or_eq_true] at h
  rcases h with halnum | hmark
  · have hranges : ((65 ≤ c.toNat ∧ c.toNat ≤ 90) ∨ 97 ≤ c.toNat ∧ c.toNat ≤ 122) ∨
        48 ≤ c.toNat ∧ c.toNat ≤ 57 := by
      change ((decide (65 ≤ c.val ∧ c.val ≤ 90) || decide (97 ≤ c.val) && decide (c.val ≤ 122)) ||
        decide (48 ≤ c.val) && decide (c.val ≤ 57)) = true at halnum
      simp only [Bool.or_eq_true, Bool.and_eq_true, decide_eq_true_eq] at halnum
      exact halnum
    omega
  · have hall : (codeMarks.all fun mark => mark.toNat < 128) = true := by decide
    exact of_decide_eq_true (List.all_eq_true.1 hall c (List.contains_iff_mem.1 hmark))

theorem charOf_ofNat_of_isCodeChar {c : Char} (h : isCodeChar c = true) :
    charOf (UInt8.ofNat c.toNat) = c := by
  have hlt := toNat_lt_of_isCodeChar h
  rw [charOf, UInt8.toNat_ofNat', Nat.mod_eq_of_lt (by omega), Char.ofNat_toNat]

/-! ### Texts -/

private theorem nativeCode_eq : nativeCode = String.ofList (nativeCodeBytes.map charOf) := by
  decide

/-- Bytes other than those of the native code do not read as it. -/
theorem ofList_charOf_ne {bytes : List UInt8} (h : bytes ≠ nativeCodeBytes) :
    String.ofList (bytes.map charOf) ≠ nativeCode := by
  intro heq
  rw [nativeCode_eq, String.ofList_inj] at heq
  have hback := congrArg (List.map fun c => UInt8.ofNat c.toNat) heq
  simp only [List.map_map, Function.comp_def, ofNat_toNat_charOf, List.map_id'] at hback
  exact h hback

/-- A code of three characters is not the native one unless the text is. -/
theorem isProper_of_ofCode? {text : String} (htext : text ≠ nativeCode) {c : Currency}
    (h : ofCode? text.toList = some c) : c.IsProper := by
  unfold ofCode? at h
  split at h
  · next x y z heq =>
    split at h
    · next hchars =>
      cases h
      obtain ⟨hx, hy, hz⟩ := hchars
      by_contra hspelled
      have hcode : [UInt8.ofNat x.toNat, UInt8.ofNat y.toNat, UInt8.ofNat z.toNat] =
          nativeCodeBytes := by
        rw [IsProper, Bool.not_eq_false, spellsNative, Bool.and_eq_true] at hspelled
        exact of_decide_eq_true hspelled.2
      refine htext ?_
      rw [nativeCode_eq, ← hcode]
      simp only [List.map_cons, List.map_nil, charOf_ofNat_of_isCodeChar, hx, hy, hz]
      rw [← heq, String.ofList_toList]
    · cases h
  · cases h

/-- A currency of a text is proper. -/
theorem isProper_of_ofText {text : String} {c : Currency} (h : ofText text = .ok c) :
    c.IsProper := by
  unfold ofText at h
  split at h
  · cases h
    exact isProper_native
  · next htext =>
    split at h
    · next d hd =>
      cases h
      exact isProper_of_ofCode? htext hd
    · split at h
      · cases hbytes : Octets.ofHex .currency 20 text with
        | error e =>
          rw [hbytes] at h
          cases h
        | ok bytes =>
          rw [hbytes] at h
          exact (checked_eq_ok_iff.1 h).1 ▸ (checked_eq_ok_iff.1 h).2
      · cases h

theorem length_toList_toHex {n : Nat} (bytes : Octets n) :
    bytes.toHex.toList.length = 2 * n := by
  have h : ∀ b ∈ bytes.toList, (Hex.encodeByte b).length = 2 := fun b _ => rfl
  rw [Octets.toHex, Hex.toList_encode, List.length_flatMap, List.map_congr_left h,
    List.map_const', List.sum_replicate_nat, bytes.length_toList, Nat.mul_comm]

/-- The text of a proper currency reads back. -/
theorem ofText_toText {c : Currency} (h : c.IsProper) : ofText c.toText = .ok c := by
  unfold toText
  split
  · next hnative =>
    rw [ofText, if_pos rfl, eq_native_of_isNative hnative]
  · split
    · next code hcode =>
      -- a code of three characters
      unfold isoCode? at hcode
      split at hcode
      · next hiso =>
        obtain ⟨hstandard, hchars, hcodeBytes⟩ := hiso
        obtain ⟨x, y, z, rfl⟩ := exists_eq_standard hstandard
        cases hcode
        simp only [code_standard, List.all_cons, List.all_nil, Bool.and_true,
          Bool.and_eq_true] at hchars
        have hne : String.ofList ([x, y, z].map charOf) ≠ nativeCode := ofList_charOf_ne hcodeBytes
        rw [code_standard, ofText, if_neg hne, String.toList_ofList]
        simp only [List.map_cons, List.map_nil, ofCode?, hchars, and_self, if_true,
          ofNat_toNat_charOf]
      · cases hcode
    · -- forty digits
      have hlength : c.bytes.toHex.toList.length = 40 := length_toList_toHex c.bytes
      have hne : c.bytes.toHex ≠ nativeCode := by
        intro heq
        rw [heq] at hlength
        exact absurd hlength (by decide)
      have hcode : ofCode? c.bytes.toHex.toList = none := by
        unfold ofCode?
        split
        · next heq =>
          rw [heq] at hlength
          cases hlength
        · rfl
      rw [ofText, if_neg hne, hcode]
      simp only [Octets.toHex, Hex.length_utf8Bytes_encode, Octets.length_toList, Nat.reduceMul,
        if_true]
      rw [← Octets.toHex, Octets.ofHex_toHex]
      exact checked_eq_ok_iff.2 ⟨rfl, h⟩

theorem isProper_of_ofJson {j : Json} {c : Currency} (h : ofJson j = .ok c) : c.IsProper := by
  cases htext : expectText .currency j with
  | error e =>
    simp only [ofJson, htext, bind, Except.bind] at h
    cases h
  | ok text =>
    simp only [ofJson, htext, bind, Except.bind] at h
    exact isProper_of_ofText h

theorem ofJson_toJson {c : Currency} (h : c.IsProper) : ofJson c.toJson = .ok c :=
  ofText_toText h

/-! ### Bytes -/

/-- The bytes of a proper currency read back. -/
theorem reads_readChecked {c : Currency} (h : c.IsProper) :
    readChecked.Reads depth c.bytes.toList c := by
  refine (Reader.Reads.octets c.bytes).bind_nil ?_
  rw [checked_eq_ok_iff.2 ⟨rfl, h⟩]
  exact .lift c

/-- A currency that is read is proper and was given by its bytes. -/
theorem yields_readChecked :
    readChecked.Yields depth fun taken c => taken = c.bytes.toList ∧ c.IsProper := by
  refine (Reader.Yields.octets 20).bind ?_
  rintro _ bytes rfl
  refine (Reader.Yields.lift _).mono ?_
  rintro _ c ⟨rfl, hc⟩
  obtain ⟨rfl, hproper⟩ := checked_eq_ok_iff.1 hc
  exact ⟨List.append_nil _, hproper⟩

theorem reads_read {c : Currency} (h : c.IsProper) {length : Option Nat}
    (hlength : ∀ n, length = some n → n = 20) : (read length).Reads depth c.bytes.toList c :=
  (Reader.Reads.checkWidth hlength).nil_bind (reads_readChecked h)

theorem yields_read (length : Option Nat) :
    (read length).Yields depth fun taken c => taken = c.bytes.toList ∧ c.IsProper :=
  (Reader.Yields.checkWidth _ _ _).nil_bind fun _ _ => yields_readChecked

end Currency

/-! ### Assets -/

namespace Issue

/-- The currency is proper, and there is an issuer exactly if it is not the native one. -/
def IsProper (issue : Issue) : Prop :=
  issue.currency.IsProper ∧ issue.issuer.isNone = issue.currency.isNative

instance (issue : Issue) : Decidable issue.IsProper := inferInstanceAs (Decidable (_ ∧ _))

/-- An asset of a plain value is proper. -/
theorem isProper_of_ofJson {book : AddressBook} {j : Json} {issue : Issue}
    (h : ofJson book j = .ok issue) : issue.IsProper := by
  unfold ofJson at h
  split at h
  · cases h
  · next members hmembers =>
    split at h
    · cases h
    · next text htext =>
      cases hcurrency : Currency.ofJson text with
      | error e =>
        rw [hcurrency] at h
        cases h
      | ok currency =>
        simp only [hcurrency, bind, Except.bind] at h
        split at h
        · cases h
          exact ⟨Currency.isProper_native, rfl⟩
        · cases h
        · next issuer hissued hissuer =>
          cases haccount : book.accountOfJson issuer with
          | error e =>
            rw [haccount] at h
            cases h
          | ok account =>
            rw [haccount] at h
            cases h
            exact ⟨Currency.isProper_of_ofJson hcurrency, hissued.symm⟩
        · cases h

/-- The plain form of a proper asset reads back. -/
theorem ofJson_toJson {book : AddressBook} (hbook : book.IsLawful) {issue : Issue}
    (h : issue.IsProper) : ofJson book (issue.toJson book) = .ok issue := by
  obtain ⟨currency, issuer⟩ := issue
  obtain ⟨hcurrency, hissuer⟩ := h
  cases issuer with
  | none =>
    have hnative : currency.isNative = true := hissuer.symm
    obtain rfl := Currency.eq_native_of_isNative hnative
    simp only [ofJson, toJson, Json.obj?, Members.get?_cons, if_true, bind, Except.bind,
      Currency.ofJson_toJson hcurrency]
    rfl
  | some account =>
    have hissued : currency.isNative = false := hissuer.symm
    have haccount := hbook.accountOfJson_accountToJson account
    have hshown : (Members.get? [("currency", currency.toJson),
        ("issuer", book.accountToJson account)] "issuer").filter (fun j => !j.isNull) =
          some (book.accountToJson account) := by
      simp only [Members.get?_cons, String.reduceEq, if_true, if_false]
      rfl
    simp only [ofJson, toJson, Json.obj?, hshown]
    simp only [Members.get?_cons, if_true, bind, Except.bind, Currency.ofJson_toJson hcurrency,
      hissued, haccount]
    rfl

/-- The bytes of a proper asset read back. -/
theorem reads_read {issue : Issue} (h : issue.IsProper) {length : Option Nat}
    (hlength : ∀ n, length = some n → n = issue.bytes.length) :
    (read length).Reads depth issue.bytes issue := by
  obtain ⟨currency, issuer⟩ := issue
  obtain ⟨hcurrency, hissuer⟩ := h
  cases issuer with
  | none =>
    have hnative : currency.isNative = true := hissuer.symm
    obtain rfl := Currency.eq_native_of_isNative hnative
    refine (Currency.reads_readChecked hcurrency).bind ?_
    rw [if_pos hnative]
    exact (Reader.Reads.checkWidth hlength).nil_bind (.pure _)
  | some account =>
    have hissued : currency.isNative = false := hissuer.symm
    have hwidth : (bytes ⟨currency, some account⟩).length = 40 := by simp [bytes]
    refine (Currency.reads_readChecked hcurrency).bind ?_
    rw [hissued, if_neg Bool.false_ne_true]
    refine (Reader.Reads.checkWidth fun n hn => (hlength n hn).trans hwidth).nil_bind ?_
    exact (Reader.Reads.octets account).bind_nil (.pure _)

/-- An asset that is read is proper and was given by its bytes. -/
theorem yields_read (length : Option Nat) :
    (read length).Yields depth fun taken issue => taken = issue.bytes ∧ issue.IsProper := by
  refine Currency.yields_readChecked.bind ?_
  rintro _ currency ⟨rfl, hcurrency⟩
  cases hnative : currency.isNative with
  | true =>
    rw [if_pos rfl]
    refine (Reader.Yields.checkWidth _ _ _).nil_bind fun _ _ => .pure ⟨?_, ?_⟩
    · rw [Currency.eq_native_of_isNative hnative]
      rfl
    · exact ⟨Currency.isProper_native, rfl⟩
  | false =>
    rw [if_neg Bool.false_ne_true]
    refine (Reader.Yields.checkWidth _ _ _).nil_bind fun _ _ => ?_
    refine (Reader.Yields.octets 20).bind ?_
    rintro _ issuer rfl
    refine .pure ⟨?_, hcurrency, hnative.symm⟩
    rw [List.append_nil, bytes]

end Issue

end FieldWire
