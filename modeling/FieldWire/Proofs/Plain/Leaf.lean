import FieldWire.Plain.Object
import FieldWire.Proofs.Value.Shape

/-!
# Plain leaves

A plain value that is read as a leaf of a kind yields a proper leaf of that kind
(`Value.proper_of_leafOfJson?`), and the plain form of a proper leaf reads back as the leaf
(`Value.leafOfJson?_toJson`). Whatever the address book, the first holds; the second is about lawful
ones (`AddressBook.IsLawful`).
-/

namespace FieldWire

/-! ### Words in hexadecimal digits -/

namespace Text

private theorem digitValue?_digit {n : Nat} (h : n < 16) :
    digitValue? (Hex.digit n) = some n ∧ Hex.digit n ≠ '+' := by
  have hall : ∀ n < 16, digitValue? (Hex.digit n) = some n ∧ Hex.digit n ≠ '+' := by decide
  exact hall n h

private theorem readDigits_encodeBytes {limit n : Nat} {bytes : List UInt8}
    (h : bytes.foldl (fun n b => n * 256 + b.toNat) n ≤ limit) :
    readDigits 16 limit n (bytes.flatMap Hex.encodeByte) =
      .ok (bytes.foldl (fun n b => n * 256 + b.toNat) n) := by
  induction bytes generalizing n with
  | nil => rfl
  | cons b rest ih =>
    have hb := b.toNat_lt
    have hhigh := digitValue?_digit (show b.toNat / 16 < 16 by omega)
    have hlow := digitValue?_digit (show b.toNat % 16 < 16 by omega)
    have hgrow : ∀ (bytes : List UInt8) (n : Nat),
        n ≤ bytes.foldl (fun n b => n * 256 + b.toNat) n := by
      intro bytes
      induction bytes with
      | nil => exact fun n => Nat.le_refl n
      | cons b rest ih => exact fun n => Nat.le_trans (by omega) (ih (n * 256 + b.toNat))
    rw [List.foldl_cons] at h ⊢
    have hstep := Nat.le_trans (hgrow rest (n * 256 + b.toNat)) h
    have hnumber : (n * 16 + b.toNat / 16) * 16 + b.toNat % 16 = n * 256 + b.toNat := by omega
    rw [List.flatMap_cons, Hex.encodeByte, List.cons_append, List.cons_append, List.nil_append,
      readDigits, hhigh.1]
    dsimp only
    rw [if_pos (by omega), if_pos (by omega), readDigits, hlow.1]
    dsimp only
    rw [if_pos (by omega), hnumber, if_pos hstep, ih h]

/-- The digits of a word are read as the word. -/
theorem readUnsigned_encode {limit width n : Nat} (hwidth : 0 < width)
    (hn : n < Nat.pow 256 width) (hlimit : n ≤ limit) :
    readUnsigned 16 limit (Hex.encode (BigEndian.ofNat width n)).toList = .ok n := by
  have hvalue : (BigEndian.ofNat width n).foldl (fun n b => n * 256 + b.toNat) 0 = n := by
    have hback := BigEndian.toNat_ofNat width n
    rwa [Nat.mod_eq_of_lt hn] at hback
  have hdigits : readDigits 16 limit 0 ((BigEndian.ofNat width n).flatMap Hex.encodeByte) =
      .ok n := by
    rw [readDigits_encodeBytes (by rwa [hvalue]), hvalue]
  rw [Hex.toList_encode]
  have hlength := BigEndian.length_ofNat width n
  cases hbytes : BigEndian.ofNat width n with
  | nil =>
    rw [hbytes, List.length_nil] at hlength
    omega
  | cons b rest =>
    rw [hbytes] at hdigits
    have hb := b.toNat_lt
    have hplus := (digitValue?_digit (show b.toNat / 16 < 16 by omega)).2
    rw [List.flatMap_cons, Hex.encodeByte, List.cons_append] at hdigits ⊢
    unfold readUnsigned
    split
    · next heq => cases heq
    · next heq => exact absurd (List.cons.inj heq).1 hplus
    · next heq => exact absurd (List.cons.inj heq).1 hplus
    · exact hdigits

end Text

namespace Value

/-! ### Numbers -/

theorem le_of_unsignedOfJson {kind : Kind} {maximum n : Nat} {j : Json}
    (h : unsignedOfJson kind maximum j = .ok n) : n ≤ maximum := by
  unfold unsignedOfJson at h
  dsimp only at h
  split at h
  · cases h
  · split at h
    · next hle =>
      cases h
      exact hle
    · cases h

theorem unsignedOfJson_nat {kind : Kind} {maximum n : Nat} (h : n ≤ maximum)
    (hmax : maximum ≤ Text.maxUInt64) : unsignedOfJson kind maximum (.nat n) = .ok n := by
  have hword : (Number.int n).uint64? = some n := by
    rw [Number.uint64?, if_pos ⟨by omega, by omega⟩, Int.toNat_natCast]
  simp only [unsignedOfJson, Json.nat, hword, if_pos h]

private theorem uint64OfJson_encode (n : UInt64) :
    uint64OfJson (.str (Hex.encode (BigEndian.ofNat 8 n.toNat))) = .ok n.toNat := by
  have hlength : (utf8Bytes (Hex.encode (BigEndian.ofNat 8 n.toNat))).length = 16 := by
    rw [Hex.length_utf8Bytes_encode, BigEndian.length_ofNat]
  have hlt := n.toNat_lt
  have hmax : n.toNat ≤ Text.maxUInt64 := by
    unfold Text.maxUInt64
    omega
  have hread := Text.readUnsigned_encode (by decide) (show n.toNat < Nat.pow 256 8 from hlt) hmax
  simp only [uint64OfJson, hlength, hread]
  rfl

/-! ### Leaves -/

/-- A plain value is read as a leaf of the kind, if there are leaves of that kind. -/
theorem leafOfJson?_eq_none_iff {book : AddressBook} {kind : Kind} {j : Json} :
    leafOfJson? book kind j = none ↔ kind = .object ∨ kind = .array := by
  cases kind <;> simp [leafOfJson?]

private theorem kind_of_leafOfJson? {book : AddressBook} {kind : Kind} {j : Json} {v : Value}
    (h : leafOfJson? book kind j = some (.ok v)) : v.kind = kind ∧ v.IsProper := by
  cases kind
  case object | array => cases h
  case amount =>
    obtain ⟨a, ha, h⟩ := bind_eq_ok_iff.1 (Option.some.inj h)
    cases h
    exact ⟨rfl, Amount.isProper_of_ofJson ha⟩
  case currency =>
    obtain ⟨c, hc, h⟩ := bind_eq_ok_iff.1 (Option.some.inj h)
    cases h
    exact ⟨rfl, Currency.isProper_of_ofJson hc⟩
  case issue =>
    obtain ⟨i, hi, h⟩ := bind_eq_ok_iff.1 (Option.some.inj h)
    cases h
    exact ⟨rfl, Issue.isProper_of_ofJson hi⟩
  case pathSet =>
    obtain ⟨paths, hpaths, h⟩ := bind_eq_ok_iff.1 (Option.some.inj h)
    cases h
    exact ⟨rfl, PathSet.isProper_of_ofJson hpaths⟩
  all_goals
    obtain ⟨a, -, h⟩ := bind_eq_ok_iff.1 (Option.some.inj h)
    cases h
    exact ⟨rfl, trivial⟩

/-- A leaf of a plain value is of its kind and proper. -/
theorem proper_of_leafOfJson? {book : AddressBook} {kind : Kind} {j : Json} {v : Value}
    (h : leafOfJson? book kind j = some (.ok v)) : v.IsLeaf ∧ v.kind = kind ∧ v.IsProper := by
  obtain ⟨hkind, hproper⟩ := kind_of_leafOfJson? h
  have hleaf : ¬(kind = .object ∨ kind = .array) := by
    rw [← leafOfJson?_eq_none_iff, h]
    exact Option.some_ne_none _
  refine ⟨?_, hkind, hproper⟩
  rw [IsLeaf, hkind]
  exact not_or.1 hleaf

/-- The number of a word reads back. -/
theorem leafOfJson?_wordCode? {book : AddressBook} {v : Value} {n : Nat}
    (h : Plain.wordCode? v = some n) : leafOfJson? book v.kind (.nat n) = some (.ok v) := by
  cases v <;> cases h
  case uint8 n =>
    have hn := n.toNat_lt
    simp only [kind, leafOfJson?, unsignedOfJson_nat (show n.toNat ≤ 0xFF by omega) (by decide),
      bind, Except.bind, pure, Except.pure, UInt8.ofNat_toNat]
  case uint16 n =>
    have hn := n.toNat_lt
    simp only [kind, leafOfJson?, unsignedOfJson_nat (show n.toNat ≤ 0xFFFF by omega) (by decide),
      bind, Except.bind, pure, Except.pure, UInt16.ofNat_toNat]
  case uint32 n =>
    have hn := n.toNat_lt
    simp only [kind, leafOfJson?,
      unsignedOfJson_nat (show n.toNat ≤ 0xFFFFFFFF by omega) (by decide), bind, Except.bind, pure,
      Except.pure, UInt32.ofNat_toNat]

private theorem octetsOfJson_toHex (kind : Kind) {n : Nat} (bytes : Octets n) :
    octetsOfJson kind n (.str bytes.toHex) = .ok bytes := by
  simp [octetsOfJson, expectText, bind, Except.bind]

/-- The plain form of a proper leaf reads back. -/
theorem leafOfJson?_toJson {context : Context} (hbook : context.addresses.IsLawful) {v : Value}
    (hleaf : v.IsLeaf) (hproper : v.IsProper) {j : Json} (h : v.toJson context = .ok j) :
    leafOfJson? context.addresses v.kind j = some (.ok v) := by
  cases v
  case object => exact absurd rfl hleaf.1
  case array => exact absurd rfl hleaf.2
  all_goals
    simp only [toJson] at h
    cases h
  case uint8 | uint16 | uint32 => exact leafOfJson?_wordCode? rfl
  case uint64 n =>
    simp only [kind, leafOfJson?, uint64OfJson_encode n, bind, Except.bind, pure, Except.pure,
      UInt64.ofNat_toNat]
  case hash128 hash =>
    simp only [kind, leafOfJson?, octetsOfJson_toHex]
    rfl
  case hash160 hash =>
    simp only [kind, leafOfJson?, octetsOfJson_toHex]
    rfl
  case hash256 hash =>
    simp only [kind, leafOfJson?, octetsOfJson_toHex]
    rfl
  case account id =>
    simp only [kind, leafOfJson?, hbook.accountOfJson_accountToJson]
    rfl
  case blob bytes =>
    simp only [kind, leafOfJson?, blobOfJson, expectText, bind, Except.bind, Hex.decode_encode]
    rfl
  case amount a =>
    simp only [kind, leafOfJson?, Amount.ofJson_toJson_of_isLawful hbook hproper]
    rfl
  case currency c =>
    simp only [kind, leafOfJson?, Currency.ofJson_toJson hproper]
    rfl
  case issue i =>
    simp only [kind, leafOfJson?, Issue.ofJson_toJson hbook hproper]
    rfl
  case vector256 hashes =>
    have hvector : vectorOfJson (.arr (hashes.map fun hash => .str hash.toHex)) = .ok hashes :=
      mapM_map_eq_ok fun hash _ => octetsOfJson_toHex _ hash
    simp only [kind, leafOfJson?, hvector]
    rfl
  case pathSet paths =>
    simp only [kind, leafOfJson?, PathSet.ofJson_toJson hbook hproper]
    rfl

/-- A leaf always has a plain form, and not the absent one. -/
theorem exists_toJson_of_isLeaf {context : Context} {v : Value} (h : v.IsLeaf) :
    ∃ j, v.toJson context = .ok j := by
  cases v
  case object => exact absurd rfl h.1
  case array => exact absurd rfl h.2
  all_goals
    rw [toJson]
    exact ⟨_, rfl⟩

end Value

end FieldWire
