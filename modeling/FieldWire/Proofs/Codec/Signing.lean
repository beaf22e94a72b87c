import FieldWire.Proofs.Codec.Ambiguity
import FieldWire.Proofs.Codec.RoundTrip

/-!
# Signed bytes tell what is signed

The bytes that are signed determine what they stand for (`Codec.Binds`, `Codec.signing_binds`): the
object with its signing fields, the account of one of several signers, the channel and the drops of
a claim, and which of the three it is. No limit on nesting is involved, and the address book may be
any.

For objects there is one exception. In an ambiguous registry, and in no other, different objects can
be signed with the same bytes (`Codec.not_signing_binds_crossed`), and then each of them has an
element in the field of the array end marker. The bundled registry is not ambiguous.
-/

namespace FieldWire.Codec

variable {codec : Codec}

/-! ### What is signed -/

/-- The object that a single signer signs. -/
def signedObject (codec : Codec) (j : Json) : Except Error Object :=
  Object.ofJson codec.context true j

/-- The object that several signers sign: its public key is empty. -/
def multisignedObject (codec : Codec) (j : Json) : Except Error Object :=
  match j.obj? with
  | none => .error (.ofKind .object .notFields)
  | some members =>
    Object.ofJson codec.context true (.obj (Members.insert publicKeyField (.str "") members))

/-- What a claim on a payment channel says. -/
structure Claim where
  /-- The channel. -/
  channel : Octets 32
  /-- The drops that are claimed. -/
  drops : Nat

/-- The claim of a plain object. -/
def claimOf (codec : Codec) (j : Json) : Except Error Claim := do
  let channel ← withField "channel" (Value.octetsOfJson .hash256 32 (← claimMember j "channel"))
  let amount ← withField "amount" (Amount.ofJson codec.addresses (← claimMember j "amount"))
  return ⟨channel, ← claimedDrops amount⟩

/-! ### Signed bytes -/

theorem signingData_eq_ok_iff {j : Json} {bytes : List UInt8} :
    codec.signingData j = .ok bytes ↔ ∃ fields body, codec.signedObject j = .ok fields ∧
      fields.toBytes = .ok body ∧ bytes = signingLead ++ body := by
  rw [signingData_eq_map, map_eq_ok_iff]
  constructor
  · rintro ⟨body, hbody, rfl⟩
    obtain ⟨fields, hfields, hwritten⟩ := encode_eq_ok_iff.1 hbody
    exact ⟨fields, body, hfields, hwritten, rfl⟩
  · rintro ⟨fields, body, hfields, hwritten, rfl⟩
    exact ⟨body, encode_eq_ok_iff.2 ⟨fields, hfields, hwritten⟩, rfl⟩

theorem exists_of_multisigningData {j : Json} {signer : String} {bytes : List UInt8}
    (h : codec.multisigningData j signer = .ok bytes) : ∃ fields body account,
      codec.multisignedObject j = .ok fields ∧ fields.toBytes = .ok body ∧
        codec.addresses.accountOfText signer = .ok account ∧
          bytes = multisigningLead ++ body ++ account.toList := by
  cases j with
  | null | bool _ | num _ | str _ | arr _ => cases h
  | obj members =>
    rw [multisigningData_obj] at h
    obtain ⟨account, haccount, h⟩ := bind_eq_ok_iff.1 h
    obtain ⟨body, hbody, heq⟩ := bind_eq_ok_iff.1 h
    obtain ⟨fields, hfields, hwritten⟩ := encode_eq_ok_iff.1 hbody
    exact ⟨fields, body, account, hfields, hwritten, Plain.withField_eq_ok_iff.1 haccount,
      (Except.ok.inj heq).symm⟩

theorem exists_ofJson_of_multisignedObject {j : Json} {fields : Object}
    (h : codec.multisignedObject j = .ok fields) :
    ∃ j', Object.ofJson codec.context true j' = .ok fields := by
  unfold multisignedObject at h
  split at h
  · cases h
  · exact ⟨_, h⟩

/-- The bytes of a claim. -/
def Claim.bytes (claim : Claim) : List UInt8 :=
  claimLead ++ claim.channel.toList ++ BigEndian.ofNat 8 claim.drops

theorem claimData_eq_map (j : Json) : codec.claimData j = (codec.claimOf j).map Claim.bytes := by
  -- both sides read the parts of the claim in the same steps, so only the last one is written
  change _ = Claim.bytes <$> codec.claimOf j
  simp only [claimData, claimOf, map_bind, map_pure, run_claim]
  rfl

/-- The drops of a claim fit a word. -/
theorem drops_lt_of_claimOf {j : Json} {claim : Claim} (h : codec.claimOf j = .ok claim) :
    claim.drops < Nat.pow 256 8 := by
  unfold claimOf at h
  obtain ⟨_, -, h⟩ := bind_eq_ok_iff.1 h
  obtain ⟨channel, -, h⟩ := bind_eq_ok_iff.1 h
  obtain ⟨_, -, h⟩ := bind_eq_ok_iff.1 h
  obtain ⟨amount, hamount, h⟩ := bind_eq_ok_iff.1 h
  obtain ⟨drops, hdrops, heq⟩ := bind_eq_ok_iff.1 h
  have hproper := Amount.isProper_of_ofJson (Plain.withField_eq_ok_iff.1 hamount)
  cases heq
  unfold claimedDrops at hdrops
  split at hdrops
  · cases hdrops
    exact Nat.lt_of_le_of_lt hproper.1 (by decide)
  · cases hdrops

/-- Claims that fit have the same bytes only if they are the same. -/
theorem Claim.eq_of_bytes {c d : Claim} (hc : c.drops < Nat.pow 256 8)
    (hd : d.drops < Nat.pow 256 8) (h : c.bytes = d.bytes) : c = d := by
  obtain ⟨channel, drops⟩ := c
  obtain ⟨channel', drops'⟩ := d
  rw [Claim.bytes, Claim.bytes, List.append_assoc, List.append_assoc] at h
  have hlength : channel.toList.length = channel'.toList.length := by
    rw [Octets.length_toList, Octets.length_toList]
  obtain ⟨hchannel, hdrops⟩ := List.append_inj (List.append_cancel_left h) hlength
  obtain rfl := Octets.ext hchannel
  have hnumber := congrArg BigEndian.toNat hdrops
  rw [BigEndian.toNat_ofNat, BigEndian.toNat_ofNat, Nat.mod_eq_of_lt hc, Nat.mod_eq_of_lt hd]
    at hnumber
  obtain rfl := hnumber
  rfl

/-! ### What is told by signed bytes -/

private theorem take_lead {lead rest : List UInt8} (h : lead.length = 4) :
    (lead ++ rest).take 4 = lead := by
  rw [← h]
  exact List.take_left

theorem take_of_signingData {j : Json} {bytes : List UInt8}
    (h : codec.signingData j = .ok bytes) : bytes.take 4 = signingLead := by
  obtain ⟨fields, body, -, -, rfl⟩ := signingData_eq_ok_iff.1 h
  exact take_lead rfl

theorem take_of_multisigningData {j : Json} {signer : String} {bytes : List UInt8}
    (h : codec.multisigningData j signer = .ok bytes) : bytes.take 4 = multisigningLead := by
  obtain ⟨fields, body, account, -, -, -, rfl⟩ := exists_of_multisigningData h
  rw [List.append_assoc]
  exact take_lead rfl

theorem take_of_claimData {j : Json} {bytes : List UInt8}
    (h : codec.claimData j = .ok bytes) : bytes.take 4 = claimLead := by
  rw [claimData_eq_map] at h
  obtain ⟨claim, -, rfl⟩ := map_eq_ok_iff.1 h
  rw [Claim.bytes, List.append_assoc]
  exact take_lead rfl

/-- Objects with signing fields are told apart by their bytes, if one is among those given. -/
def TellsApart (codec : Codec) (among : Object → Prop) : Prop :=
  ∀ j j' fields fields' bytes, Object.ofJson codec.context true j = .ok fields →
    Object.ofJson codec.context true j' = .ok fields' → fields.toBytes = .ok bytes →
      fields'.toBytes = .ok bytes → among fields → fields = fields'

theorem tellsApart_unmarked (hregistry : codec.registry.Regular) :
    codec.TellsApart (Object.Obeys .unmarked) := by
  intro j j' fields fields' bytes hfields hfields' hbytes hbytes' hunmarked
  exact Object.eq_of_toBytes hregistry (Object.fits_of_ofJson hfields)
    (Object.fits_of_ofJson hfields') hbytes hbytes' (.inl hunmarked)

/-- All objects are told apart in a registry that is not ambiguous, and in no other. -/
theorem tellsApart_iff (hregistry : codec.registry.Regular) :
    codec.TellsApart (fun _ => True) ↔ ¬codec.registry.IsAmbiguous := by
  have hcontext : codec.context.registry.Regular := hregistry
  constructor
  · intro h hambiguous
    obtain ⟨j, j', fields, fields', bytes, hfields, hfields', hbytes, hbytes', hne⟩ :=
      Registry.IsAmbiguous.exists_collision hcontext hambiguous
    exact hne (h j j' fields fields' bytes hfields hfields' hbytes hbytes' trivial)
  · intro h j j' fields fields' bytes hfields hfields' hbytes hbytes' _
    exact hcontext.eq_of_toBytes_of_signing h hfields hfields' hbytes hbytes'

example : Crossed.registry.IsAmbiguous := by decide

variable {among : Object → Prop}

/-- A single signer signs one object with given bytes. -/
theorem TellsApart.signedObject_eq (h : codec.TellsApart among) {j₁ j₂ : Json}
    {bytes : List UInt8} (h₁ : codec.signingData j₁ = .ok bytes)
    (h₂ : codec.signingData j₂ = .ok bytes) {fields : Object}
    (hfields : codec.signedObject j₁ = .ok fields) (hamong : among fields) :
    codec.signedObject j₂ = .ok fields := by
  obtain ⟨fields₁, body₁, hfields₁, hbody₁, hbytes₁⟩ := signingData_eq_ok_iff.1 h₁
  obtain ⟨fields₂, body₂, hfields₂, hbody₂, hbytes₂⟩ := signingData_eq_ok_iff.1 h₂
  cases hfields.symm.trans hfields₁
  obtain rfl := List.append_cancel_left (hbytes₁.symm.trans hbytes₂)
  rw [hfields₂, h _ _ _ _ _ hfields hfields₂ hbody₁ hbody₂ hamong]

/-- The bytes of one of several signers tell the account. -/
theorem account_eq_of_multisigningData {j₁ j₂ : Json} {signer₁ signer₂ : String}
    {bytes : List UInt8} (h₁ : codec.multisigningData j₁ signer₁ = .ok bytes)
    (h₂ : codec.multisigningData j₂ signer₂ = .ok bytes) :
    ∃ account fields₁ fields₂ body, codec.addresses.accountOfText signer₁ = .ok account ∧
      codec.addresses.accountOfText signer₂ = .ok account ∧
        codec.multisignedObject j₁ = .ok fields₁ ∧ codec.multisignedObject j₂ = .ok fields₂ ∧
          fields₁.toBytes = .ok body ∧ fields₂.toBytes = .ok body := by
  obtain ⟨fields₁, body₁, account₁, hfields₁, hbody₁, haccount₁, hbytes₁⟩ :=
    exists_of_multisigningData h₁
  obtain ⟨fields₂, body₂, account₂, hfields₂, hbody₂, haccount₂, hbytes₂⟩ :=
    exists_of_multisigningData h₂
  have hlength : account₁.toList.length = account₂.toList.length := by
    rw [Octets.length_toList, Octets.length_toList]
  -- accounts have one length, so they can be cut off from behind
  obtain ⟨hbodies, haccounts⟩ := List.append_inj' (hbytes₁.symm.trans hbytes₂) hlength
  obtain rfl := List.append_cancel_left hbodies
  obtain rfl := Octets.ext haccounts
  exact ⟨account₁, fields₁, fields₂, body₁, haccount₁, haccount₂, hfields₁, hfields₂, hbody₁,
    hbody₂⟩

/-- One of several signers signs one object with given bytes. -/
theorem TellsApart.multisignedObject_eq (h : codec.TellsApart among) {j₁ j₂ : Json}
    {signer₁ signer₂ : String} {bytes : List UInt8}
    (h₁ : codec.multisigningData j₁ signer₁ = .ok bytes)
    (h₂ : codec.multisigningData j₂ signer₂ = .ok bytes) {fields : Object}
    (hfields : codec.multisignedObject j₁ = .ok fields) (hamong : among fields) :
    codec.multisignedObject j₂ = .ok fields := by
  obtain ⟨account, fields₁, fields₂, body, -, -, hfields₁, hfields₂, hbody₁, hbody₂⟩ :=
    account_eq_of_multisigningData h₁ h₂
  cases hfields.symm.trans hfields₁
  obtain ⟨_, hread₁⟩ := exists_ofJson_of_multisignedObject hfields
  obtain ⟨_, hread₂⟩ := exists_ofJson_of_multisignedObject hfields₂
  rw [hfields₂, h _ _ _ _ _ hread₁ hread₂ hbody₁ hbody₂ hamong]

/-- The bytes of a claim tell the claim. -/
theorem claimOf_eq_of_claimData {j₁ j₂ : Json} {bytes : List UInt8}
    (h₁ : codec.claimData j₁ = .ok bytes) (h₂ : codec.claimData j₂ = .ok bytes) :
    ∃ claim, codec.claimOf j₁ = .ok claim ∧ codec.claimOf j₂ = .ok claim := by
  rw [claimData_eq_map] at h₁ h₂
  obtain ⟨claim₁, hclaim₁, hbytes₁⟩ := map_eq_ok_iff.1 h₁
  obtain ⟨claim₂, hclaim₂, hbytes₂⟩ := map_eq_ok_iff.1 h₂
  obtain rfl := Claim.eq_of_bytes (drops_lt_of_claimOf hclaim₁) (drops_lt_of_claimOf hclaim₂)
    (hbytes₁.trans hbytes₂.symm)
  exact ⟨claim₁, hclaim₁, hclaim₂⟩

/-- Signed bytes tell what is signed, where objects are concerned if one is among those given. -/
structure Binds (codec : Codec) (among : Object → Prop) : Prop where
  /-- What a single signer signs is told by its bytes. -/
  single : ∀ j₁ j₂ bytes, codec.signingData j₁ = .ok bytes → codec.signingData j₂ = .ok bytes →
    ∀ fields, codec.signedObject j₁ = .ok fields → among fields →
      codec.signedObject j₂ = .ok fields
  /-- What one of several signers signs is told by its bytes. -/
  several : ∀ j₁ j₂ signer₁ signer₂ bytes, codec.multisigningData j₁ signer₁ = .ok bytes →
    codec.multisigningData j₂ signer₂ = .ok bytes →
      ∀ fields, codec.multisignedObject j₁ = .ok fields → among fields →
        codec.multisignedObject j₂ = .ok fields
  /-- So is the account of the signer, in any case. -/
  account : ∀ j₁ j₂ signer₁ signer₂ bytes, codec.multisigningData j₁ signer₁ = .ok bytes →
    codec.multisigningData j₂ signer₂ = .ok bytes →
      ∃ account, codec.addresses.accountOfText signer₁ = .ok account ∧
        codec.addresses.accountOfText signer₂ = .ok account
  /-- A claim is told by its bytes. -/
  claim : ∀ j₁ j₂ bytes, codec.claimData j₁ = .ok bytes → codec.claimData j₂ = .ok bytes →
    ∃ claim, codec.claimOf j₁ = .ok claim ∧ codec.claimOf j₂ = .ok claim
  /-- Bytes of a single signer are not those of one of several. -/
  single_ne_several : ∀ j₁ j₂ signer bytes, codec.signingData j₁ = .ok bytes →
    codec.multisigningData j₂ signer ≠ .ok bytes
  /-- Bytes of a single signer are not those of a claim. -/
  single_ne_claim : ∀ j₁ j₂ bytes, codec.signingData j₁ = .ok bytes →
    codec.claimData j₂ ≠ .ok bytes
  /-- Bytes of one of several signers are not those of a claim. -/
  several_ne_claim : ∀ j₁ j₂ signer bytes, codec.multisigningData j₁ signer = .ok bytes →
    codec.claimData j₂ ≠ .ok bytes

/-- Where bytes tell objects apart, they tell what is signed. -/
theorem TellsApart.binds (h : codec.TellsApart among) : codec.Binds among where
  single _ _ _ h₁ h₂ _ := h.signedObject_eq h₁ h₂
  several _ _ _ _ _ h₁ h₂ _ := h.multisignedObject_eq h₁ h₂
  account _ _ _ _ _ h₁ h₂ := by
    obtain ⟨account, -, -, -, haccount₁, haccount₂, -⟩ := account_eq_of_multisigningData h₁ h₂
    exact ⟨account, haccount₁, haccount₂⟩
  claim _ _ _ := claimOf_eq_of_claimData
  single_ne_several _ _ _ _ h₁ h₂ := by
    have hleads := (take_of_signingData h₁).symm.trans (take_of_multisigningData h₂)
    exact absurd hleads (by decide)
  single_ne_claim _ _ _ h₁ h₂ := by
    have hleads := (take_of_signingData h₁).symm.trans (take_of_claimData h₂)
    exact absurd hleads (by decide)
  several_ne_claim _ _ _ _ h₁ h₂ := by
    have hleads := (take_of_multisigningData h₁).symm.trans (take_of_claimData h₂)
    exact absurd hleads (by decide)

/-- Bytes that tell what a single signer signs tell objects apart. -/
theorem Binds.tellsApart (h : codec.Binds among) : codec.TellsApart among := by
  intro j j' fields fields' bytes hfields hfields' hbytes hbytes' hamong
  have h₁ := signingData_eq_ok_iff.2 ⟨fields, bytes, hfields, hbytes, rfl⟩
  have h₂ := signingData_eq_ok_iff.2 ⟨fields', bytes, hfields', hbytes', rfl⟩
  exact Except.ok.inj ((h.single j j' _ h₁ h₂ fields hfields hamong).symm.trans hfields')

/-- **Signed bytes tell what is signed** if no element of the object is wrapped in the field of the
array end marker; and they tell it of every object exactly if the registry is not ambiguous. -/
theorem signing_binds (hregistry : codec.registry.Regular) :
    codec.Binds (Object.Obeys .unmarked) ∧
      (codec.Binds (fun _ => True) ↔ ¬codec.registry.IsAmbiguous) := by
  refine ⟨(tellsApart_unmarked hregistry).binds, ?_⟩
  rw [← tellsApart_iff hregistry]
  exact ⟨Binds.tellsApart, TellsApart.binds⟩

/-- Signed bytes tell what is signed in the bundled registry. -/
theorem signing_binds_default : Codec.default.Binds fun _ => True := by
  have hbundled : ¬Codec.default.registry.IsAmbiguous := by
    rw [registry_default]
    exact Registry.not_isAmbiguous_bundled
  exact (signing_binds regular_default).2.2 hbundled

/-- Two objects with elements in the field of the array end marker are signed with the same bytes:
one has two such elements behind each other, the other one inside the other. -/
theorem not_signing_binds_crossed :
    Crossed.codec.signingData (.obj [("Items", .arr [
      .obj [(arrayEndName, .obj [("Items", .arr [])])], .obj [(arrayEndName, .obj [])]])]) =
        .ok [0x53, 0x54, 0x58, 0x00, 0xE2, 0xF1, 0xE2, 0xF1, 0xE1, 0xF1, 0xE1, 0xF1] ∧
    Crossed.codec.signingData
      (Crossed.itemsJson arrayEndName (Crossed.itemsJson arrayEndName (.obj []))) =
        .ok [0x53, 0x54, 0x58, 0x00, 0xE2, 0xF1, 0xE2, 0xF1, 0xE1, 0xF1, 0xE1, 0xF1] ∧
    Crossed.codec.signedObject (.obj [("Items", .arr [
      .obj [(arrayEndName, .obj [("Items", .arr [])])], .obj [(arrayEndName, .obj [])]])]) ≠
        Crossed.codec.signedObject
          (Crossed.itemsJson arrayEndName (Crossed.itemsJson arrayEndName (.obj []))) := by
  refine ⟨rfl, rfl, fun heq => ?_⟩
  have hbehind : Crossed.codec.signedObject (.obj [("Items", .arr [
      .obj [(arrayEndName, .obj [("Items", .arr [])])], .obj [(arrayEndName, .obj [])]])]) =
      .ok [(Crossed.itemsField, .array [(Crossed.endField, [(Crossed.itemsField, .array [])]),
        (Crossed.endField, [])])] := rfl
  have hinside : Crossed.codec.signedObject
      (Crossed.itemsJson arrayEndName (Crossed.itemsJson arrayEndName (.obj []))) =
      .ok [(Crossed.itemsField, .array [(Crossed.endField,
        [(Crossed.itemsField, .array [(Crossed.endField, [])])])])] := rfl
  rw [hbehind, hinside] at heq
  cases heq

end FieldWire.Codec
