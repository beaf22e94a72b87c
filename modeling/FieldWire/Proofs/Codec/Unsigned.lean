import FieldWire.Proofs.Codec.KeyOrder

/-!
# What signatures do not depend on

Some keys are *ignored* when an object is signed (`Registry.Ignores`): they name fields that are not
written or not covered by signatures. What is given there may be anything, of any type, and it may
as well be missing. Two objects that are alike but for ignored keys (`Members.AlikeBut`) have the
same signing fields, or neither has any (`Object.agree_ofJson_of_alikeBut`).

The argument takes the ignored members out. They are passed over before their values are looked at,
so the object stays the same; and what is left of two such objects corresponds key by key, and is
read alike as in `FieldWire.Proofs.Plain.Alike.Object`. It needs a book without extended addresses:
an ignored member could otherwise be an address whose tag is out of place.

For one of several signers the public key of the signer is put into the object first, so it does not
count either what is given there. Hence the bytes to be signed depend on nothing else
(`Codec.agree_signing_of_alikeBut`).
-/

namespace FieldWire

/-- The key names a field that is not written or that signatures do not cover, and that is no end
marker. -/
def Registry.Ignores (registry : Registry) (key : String) : Prop :=
  ∃ f, registry.fieldByName key = .ok f ∧ f.isMarker = false ∧
    (f.serialized = false ∨ f.signing = false)

/-! ### Objects that are alike but for some keys -/

namespace Members

/-- Every key that is not set aside has alike values in both objects, or in both none but null. -/
def AlikeBut (registry : Registry) (aside : String → Prop) (members members' : Members Json) :
    Prop :=
  ∀ key, ¬aside key →
    Option.Rel (Json.Alike registry .content ((Role.value .object).ofMember registry key))
      (members.present key) (members'.present key)

variable {registry : Registry} {aside : String → Prop} {members members' : Members Json}

/-- Where both objects have the same values, they are alike. -/
theorem alikeBut_of_eq (h : ∀ key, ¬aside key → members.present key = members'.present key) :
    members.AlikeBut registry aside members' := by
  intro key hkey
  rw [h key hkey]
  cases members'.present key with
  | none => exact .none
  | some j => exact .some (Json.Alike.refl Leeway.isReflexive_content j _)

/-- A key need not be set aside any more when the same value is put there in both objects. -/
theorem AlikeBut.insert {key : String}
    (h : members.AlikeBut registry (fun k => aside k ∨ k = key) members') (value : Json) :
    (Members.insert key value members).AlikeBut registry aside
      (Members.insert key value members') := by
  intro k hk
  rw [present_insert, present_insert]
  split
  · cases (some value).filter fun j => !j.isNull with
    | none => exact .none
    | some j => exact .some (Json.Alike.refl Leeway.isReflexive_content j _)
  · next hne => exact h k (not_or.2 ⟨hk, Ne.symm hne⟩)

end Members

/-! ### Ignored members -/

namespace Plain

variable {context : Context} {convert : Kind → Json → Except Error Value}

/-- An ignored member is passed over where only signing fields are wanted. -/
theorem fieldOfMember_of_ignores {member : String × Json}
    (h : context.registry.Ignores member.1) :
    fieldOfMember context convert true member = .ok none := by
  obtain ⟨f, hfield, hmarker, hignored⟩ := h
  exact fieldOfMember_eq_none_iff.2
    (.inr ⟨f, hfield, hmarker, hignored.imp_right fun hsigning => ⟨rfl, hsigning⟩⟩)

/-- Ignored members can as well be taken out. -/
theorem objectWith_filter_key (hhex : context.addresses = .hex) {keep : String → Bool}
    (hkeep : ∀ key, keep key = false → context.registry.Ignores key) (members : Members Json) :
    objectWith context convert true (.obj (members.filter fun m => keep m.1)) =
      objectWith context convert true (.obj members) := by
  have hcollect : collect (fieldOfMember context convert true)
      (members.filter fun m => keep m.1) = collect (fieldOfMember context convert true) members :=
    collect_filter_of_none fun m _ hm => fieldOfMember_of_ignores (hkeep m.1 hm)
  simp only [objectWith, Json.obj?, hhex, expand_hex, hcollect]

/-- What is left of objects that are alike but for the keys that are taken out corresponds. -/
theorem corresponds_of_alikeBut (hregistry : context.registry.WellFormed)
    (hbook : context.addresses.SparesNumbers) {aside : String → Prop} {keep : String → Bool}
    (hkeep : ∀ key, keep key = true → ¬aside key) {members members' : Members Json}
    (hj : (Json.obj members).KeysDistinct) (hj' : (Json.obj members').KeysDistinct)
    (h : members.AlikeBut context.registry aside members') :
    Corresponds context (Value.ofJson context) (members.filter fun m => keep m.1)
      (members'.filter fun m => keep m.1) := by
  obtain ⟨hkeys, hvalues⟩ := Json.keysDistinct_obj.1 hj
  obtain ⟨hkeys', hvalues'⟩ := Json.keysDistinct_obj.1 hj'
  intro key
  rw [Members.present_filter_key, Members.present_filter_key]
  split
  · next hkept =>
    refine rel_mono (h key (hkeep key hkept)) fun j hgiven j' hgiven' halike => ?_
    have hmem := ((Members.present_eq_some_iff hkeys).1 hgiven).1
    have hmem' := ((Members.present_eq_some_iff hkeys').1 hgiven').1
    exact halike.interchangeable hregistry hbook (hvalues _ hmem) (hvalues' _ hmem')
  · exact .none

end Plain

/-- Objects that are alike but for ignored keys have the same signing fields, or neither has. -/
theorem Object.agree_ofJson_of_alikeBut {context : Context}
    (hregistry : context.registry.WellFormed) (hhex : context.addresses = .hex)
    {members members' : Members Json} (hj : (Json.obj members).KeysDistinct)
    (hj' : (Json.obj members').KeysDistinct)
    (h : members.AlikeBut context.registry context.registry.Ignores members') :
    Agree (ofJson context true (.obj members)) (ofJson context true (.obj members')) := by
  classical
  have hbook : context.addresses.SparesNumbers := hhex ▸ fun _ _ => rfl
  -- what is left of both objects are the keys that are not ignored
  let keep : String → Bool := fun key => decide ¬context.registry.Ignores key
  have hkeep : ∀ key, keep key = true → ¬context.registry.Ignores key :=
    fun key hkept => of_decide_eq_true hkept
  have hcut : ∀ key, keep key = false → context.registry.Ignores key :=
    fun key hcut => not_not.1 (of_decide_eq_false hcut)
  have hleft := Plain.corresponds_of_alikeBut hregistry hbook hkeep hj hj' h
  have hdistinct : ∀ given : Members Json, given.keys.Nodup →
      (Members.keys (given.filter fun m => keep m.1)).Nodup :=
    fun given hkeys => (List.filter_sublist.map Prod.fst).nodup hkeys
  rw [ofJson_eq, ofJson_eq, ← Plain.objectWith_filter_key hhex hcut members,
    ← Plain.objectWith_filter_key hhex hcut members']
  exact Plain.agree_objectWith (hdistinct _ (Json.keysDistinct_obj.1 hj).1)
    (hdistinct _ (Json.keysDistinct_obj.1 hj').1) hleft hregistry hbook

namespace Codec

variable {codec : Codec} {members members' : Members Json}

/-- **Signed bytes do not depend on ignored keys.** In an accepted registry, without extended
addresses, the bytes that a single signer signs are the same for two objects without repeated keys
that are alike but for ignored keys, or there are none for either. The bytes that one of several
signers signs do not depend on the public key that is given either. -/
theorem agree_signing_of_alikeBut (hregistry : codec.registry.Accepted)
    (hhex : codec.addresses = .hex) (hj : (Json.obj members).KeysDistinct)
    (hj' : (Json.obj members').KeysDistinct) :
    (members.AlikeBut codec.registry codec.registry.Ignores members' →
      Agree (codec.signingData (.obj members)) (codec.signingData (.obj members'))) ∧
    (members.AlikeBut codec.registry
        (fun key => codec.registry.Ignores key ∨ key = publicKeyField) members' →
      ∀ signer, Agree (codec.multisigningData (.obj members) signer)
        (codec.multisigningData (.obj members') signer)) := by
  refine ⟨fun h => ?_, fun h signer => ?_⟩
  · have hobject : Agree (Object.ofJson codec.context true (.obj members))
        (Object.ofJson codec.context true (.obj members')) :=
      Object.agree_ofJson_of_alikeBut hregistry.wellFormed hhex hj hj' h
    exact agree_signingData (agree_encode hobject)
  · have hdistinct : ∀ {given : Members Json}, (Json.obj given).KeysDistinct →
        (Json.obj (Members.insert publicKeyField (.str "") given)).KeysDistinct :=
      fun hgiven => Json.keysDistinct_insert trivial hgiven
    exact agree_multisigningData_of_insert (Object.agree_ofJson_of_alikeBut
      hregistry.wellFormed hhex (hdistinct hj) (hdistinct hj') (h.insert (.str ""))) signer

end Codec

namespace Transfer

/-- A codec for transfers without extended addresses. -/
def hexCodec : Codec := ⟨registry, .hex, defaultMaxDepth, defaultMaxInput⟩

/-- A signed transfer. -/
def signed : Members Json :=
  [("TxnSignature", .str "AB"), ("SourceTag", .nat 7), ("SigningPubKey", .str "0102")]

/-- The transfer with its keys in another order, without the signature and with a note that is of no
type that notes have. -/
def noted : Members Json :=
  [("SigningPubKey", .str "0102"), ("Note", .arr [.null]), ("SourceTag", .nat 7)]

/-- The transfer with nothing that depends on the signer. -/
def unsigned : Members Json := [("SourceTag", .nat 7)]

theorem ignores_signature : registry.Ignores "TxnSignature" := ⟨_, rfl, rfl, .inr rfl⟩

theorem ignores_note : registry.Ignores "Note" := ⟨_, rfl, rfl, .inl rfl⟩

theorem alikeBut_noted : signed.AlikeBut registry registry.Ignores noted := by
  refine Members.alikeBut_of_eq fun key hkey => ?_
  have hsignature : "TxnSignature" ≠ key := fun h => hkey (h ▸ ignores_signature)
  have hnote : "Note" ≠ key := fun h => hkey (h ▸ ignores_note)
  simp only [Members.present, signed, noted, Members.get?_cons, if_neg hsignature, if_neg hnote]
  by_cases htag : "SourceTag" = key
  · have hpublic : "SigningPubKey" ≠ key := htag ▸ by decide
    rw [if_pos htag, if_neg hpublic, if_pos htag]
  · rw [if_neg htag, if_neg htag]

theorem alikeBut_unsigned : signed.AlikeBut registry
    (fun key => registry.Ignores key ∨ key = Codec.publicKeyField) unsigned := by
  refine Members.alikeBut_of_eq fun key hkey => ?_
  have hsignature : "TxnSignature" ≠ key := fun h => hkey (.inl (h ▸ ignores_signature))
  have hpublic : "SigningPubKey" ≠ key := fun h => hkey (.inr h.symm)
  simp only [Members.present, signed, unsigned, Members.get?_cons, if_neg hsignature,
    if_neg hpublic]

end Transfer

/-- The same bytes are signed of the transfer and of its variants. -/
theorem Codec.agree_signing_transfer :
    Transfer.hexCodec.signingData (.obj Transfer.signed) =
        .ok (signingLead ++ [0x23, 0, 0, 0, 7, 0x73, 2, 1, 2]) ∧
      Transfer.hexCodec.signingData (.obj Transfer.noted) =
        .ok (signingLead ++ [0x23, 0, 0, 0, 7, 0x73, 2, 1, 2]) ∧
      Agree (Transfer.hexCodec.multisigningData (.obj Transfer.signed) Transfer.account.toHex)
        (Transfer.hexCodec.multisigningData (.obj Transfer.unsigned) Transfer.account.toHex) := by
  have hsigned : (Json.obj Transfer.signed).KeysDistinct :=
    ⟨by decide, trivial, trivial, trivial, trivial⟩
  have hnoted : (Json.obj Transfer.noted).KeysDistinct :=
    ⟨by decide, trivial, ⟨trivial, trivial⟩, trivial, trivial⟩
  have hunsigned : (Json.obj Transfer.unsigned).KeysDistinct := ⟨by decide, trivial, trivial⟩
  have hbytes : Transfer.hexCodec.signingData (.obj Transfer.signed) =
      .ok (signingLead ++ [0x23, 0, 0, 0, 7, 0x73, 2, 1, 2]) :=
    eq_ok_of_toOption (by decide +kernel)
  have hsingle : Agree (Transfer.hexCodec.signingData (.obj Transfer.signed))
      (Transfer.hexCodec.signingData (.obj Transfer.noted)) :=
    (agree_signing_of_alikeBut Transfer.accepted rfl hsigned hnoted).1 Transfer.alikeBut_noted
  exact ⟨hbytes, (hsingle _).1 hbytes, (agree_signing_of_alikeBut Transfer.accepted rfl hsigned
    hunsigned).2 Transfer.alikeBut_unsigned Transfer.account.toHex⟩

end FieldWire
