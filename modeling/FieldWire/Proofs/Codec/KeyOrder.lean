import FieldWire.Proofs.Codec.Encoding
import FieldWire.Proofs.Plain.Alike.Object
import FieldWire.Proofs.Plain.Complete

/-!
# Bytes do not depend on the order of keys

What is encoded of a plain object depends on its keys that are not null and on their values, at every
level; the order of the keys does not count, and neither do nulls (`Codec.sameBytes_of_alike`). That
holds of all that is encoded, also of what is signed.

It needs a book that takes no number for an extended address. The tag of an account is a member of
its own, and if a text there could be both the tag and an address again, it would matter which of
the two addresses is replaced first.
-/

namespace FieldWire

namespace Object

variable (context : Context) {j j' : Json}

/-- Alike plain values are the same object. -/
theorem agree_ofJson (hregistry : context.registry.WellFormed)
    (hbook : context.addresses.SparesNumbers)
    (h : Json.Alike context.registry .content (.value .object) j j') (hj : j.KeysDistinct)
    (hj' : j'.KeysDistinct) (onlySigning : Bool) :
    Agree (ofJson context onlySigning j) (ofJson context onlySigning j') := by
  rw [ofJson_eq, ofJson_eq]
  cases j <;> cases j'
  case obj.obj members members' =>
    exact Plain.agree_objectWith (Json.keysDistinct_obj.1 hj).1 (Json.keysDistinct_obj.1 hj').1
      (h.corresponds hregistry hbook hj hj') hregistry hbook
  case arr.arr => exact .of_error _ _
  all_goals
    cases h
    try exact .refl _

/-- Alike plain values are the same object when the same member is put into both. -/
theorem agree_ofJson_insert (hregistry : context.registry.WellFormed)
    (hbook : context.addresses.SparesNumbers) {members members' : Members Json}
    (h : Json.Alike context.registry .content (.value .object) (.obj members) (.obj members'))
    (hj : (Json.obj members).KeysDistinct) (hj' : (Json.obj members').KeysDistinct)
    (key : String) (value : Json) (onlySigning : Bool) :
    Agree (ofJson context onlySigning (.obj (Members.insert key value members)))
      (ofJson context onlySigning (.obj (Members.insert key value members'))) := by
  rw [ofJson_eq, ofJson_eq]
  have hkeys := Members.nodup_keys_insert (Json.keysDistinct_obj.1 hj).1 key value
  have hkeys' := Members.nodup_keys_insert (Json.keysDistinct_obj.1 hj').1 key value
  have hcorresponds := (h.corresponds hregistry hbook hj hj').insert key value
  exact Plain.agree_objectWith hkeys hkeys' hcorresponds hregistry hbook

end Object

namespace Codec

/-- Whatever is encoded of the one is encoded of the other as the same bytes, or both fail. -/
structure SameBytes (codec : Codec) (j j' : Json) : Prop where
  /-- The bytes of the objects. -/
  encode : ∀ onlySigning, Agree (codec.encode j onlySigning) (codec.encode j' onlySigning)
  /-- What a single signer signs. -/
  signingData : Agree (codec.signingData j) (codec.signingData j')
  /-- What one of several signers signs. -/
  multisigningData : ∀ signer,
    Agree (codec.multisigningData j signer) (codec.multisigningData j' signer)

variable {codec : Codec} {j j' : Json}

/-- Plain values that are read as the same object have the same bytes. -/
theorem agree_encode {onlySigning : Bool} (h : Agree (Object.ofJson codec.context onlySigning j)
    (Object.ofJson codec.context onlySigning j')) :
    Agree (codec.encode j onlySigning) (codec.encode j' onlySigning) := by
  rw [encode_eq_bind, encode_eq_bind]
  exact h.bind fun fields => .refl fields.toBytes

/-- Plain values with the same bytes of signing fields have the same bytes for a single signer. -/
theorem agree_signingData (h : Agree (codec.encode j true) (codec.encode j' true)) :
    Agree (codec.signingData j) (codec.signingData j') := by
  rw [signingData_eq_map, signingData_eq_map]
  exact h.map _

/-- Objects that are the same with an empty public key in them have the same bytes for one of several
signers. -/
theorem agree_multisigningData_of_insert {members members' : Members Json}
    (h : Agree
      (Object.ofJson codec.context true (.obj (Members.insert publicKeyField (.str "") members)))
      (Object.ofJson codec.context true (.obj (Members.insert publicKeyField (.str "") members'))))
    (signer : String) : Agree (codec.multisigningData (.obj members) signer)
      (codec.multisigningData (.obj members') signer) := by
  rw [multisigningData_obj, multisigningData_obj]
  exact (Agree.refl _).bind fun account => (agree_encode h).bind fun _ => .refl _

private theorem agree_multisigningData (hregistry : codec.registry.Accepted)
    (hbook : codec.addresses.SparesNumbers)
    (h : Json.Alike codec.registry .content (.value .object) j j') (hj : j.KeysDistinct)
    (hj' : j'.KeysDistinct) (signer : String) :
    Agree (codec.multisigningData j signer) (codec.multisigningData j' signer) := by
  cases j <;> cases j'
  case obj.obj members members' =>
    exact agree_multisigningData_of_insert (Object.agree_ofJson_insert codec.context
      hregistry.wellFormed hbook h hj hj' publicKeyField (.str "") true) signer
  case arr.arr => exact .of_error _ _
  all_goals
    cases h
    try exact .refl _

/-- **The order of keys does not count.** In an accepted registry, with a book that takes no number
for an extended address, two plain values without repeated keys that differ in the order of keys,
and in keys that are null, have the same bytes for every purpose, or none. -/
theorem sameBytes_of_alike (hregistry : codec.registry.Accepted)
    (hbook : codec.addresses.SparesNumbers) (hj : j.KeysDistinct) (hj' : j'.KeysDistinct)
    (h : Json.Alike codec.registry .content (.value .object) j j') : codec.SameBytes j j' := by
  have hencode : ∀ onlySigning, Agree (codec.encode j onlySigning) (codec.encode j' onlySigning) := by
    intro onlySigning
    exact agree_encode
      (Object.agree_ofJson codec.context hregistry.wellFormed hbook h hj hj' onlySigning)
  exact ⟨hencode, agree_signingData (hencode true),
    agree_multisigningData hregistry hbook h hj hj'⟩

end Codec

namespace Transfer

/-- A codec for transfers. -/
def codec : Codec := ⟨registry, book, defaultMaxDepth, defaultMaxInput⟩

/-- The plain object with its keys in another order and with other nulls, also in the list. -/
def shuffled : Json :=
  .obj [("Memos", .arr [.obj [("Memo", .obj [("Account", .null), ("TxnSignature", .str "EF")])]]),
    ("TxnSignature", .str "AB"), ("Unheard", .null), ("Account", .str "X7"), ("Note", .str "CD")]

theorem keysDistinct_shuffled : shuffled.KeysDistinct := by
  have hmemo : (Json.obj [("Account", .null), ("TxnSignature", .str "EF")]).KeysDistinct :=
    ⟨by decide, trivial, trivial, trivial⟩
  have hmemos : (Json.arr [.obj [("Memo",
      .obj [("Account", .null), ("TxnSignature", .str "EF")])]]).KeysDistinct :=
    ⟨⟨List.pairwise_singleton _ _, hmemo, trivial⟩, trivial⟩
  exact ⟨by decide, hmemos, trivial, trivial, trivial, trivial, trivial⟩

theorem alike_shuffled : Json.Alike registry .content (.value .object) plain shuffled := by
  have hmemo : Json.Alike registry .content (.value .object)
      (.obj [("TxnSignature", .str "EF"), ("SourceTag", .null)])
      (.obj [("Account", .null), ("TxnSignature", .str "EF")]) :=
    .obj _ [("TxnSignature", .str "EF", .str "EF")] (.refl _) (.refl _)
      (List.forall_mem_singleton.2 (.leaf _ rfl))
  have hitem : Json.Alike registry .content .element
      (.obj [("Memo", .obj [("TxnSignature", .str "EF"), ("SourceTag", .null)])])
      (.obj [("Memo", .obj [("Account", .null), ("TxnSignature", .str "EF")])]) :=
    .obj _ [("Memo", _, _)] (.refl _) (.refl _) (List.forall_mem_singleton.2 hmemo)
  have hmemos : Json.Alike registry .content (.value .array)
      (.arr [.obj [("Memo", .obj [("TxnSignature", .str "EF"), ("SourceTag", .null)])]])
      (.arr [.obj [("Memo", .obj [("Account", .null), ("TxnSignature", .str "EF")])]]) :=
    .arr _ [(_, _)] (List.forall_mem_singleton.2 hitem)
  refine .obj _ [("TxnSignature", .str "AB", .str "AB"), ("Account", .str "X7", .str "X7"),
    ("Note", .str "CD", .str "CD"), ("Memos", _, _)] (.refl _)
    (List.perm_append_singleton _ _).symm ?_
  simp only [List.forall_mem_cons]
  exact ⟨.leaf _ rfl, .leaf _ rfl, .leaf _ rfl, hmemos, List.forall_mem_nil _⟩

end Transfer

/-- A transfer and its shuffled form, of which bytes can be made. -/
theorem Codec.sameBytes_transfer : ∃ bytes,
    Transfer.codec.encode Transfer.plain false = .ok bytes ∧
      Transfer.codec.encode Transfer.shuffled false = .ok bytes ∧
      Transfer.codec.SameBytes Transfer.plain Transfer.shuffled := by
  have hsame : Transfer.codec.SameBytes Transfer.plain Transfer.shuffled :=
    sameBytes_of_alike Transfer.accepted Transfer.sparesNumbers_book Transfer.keysDistinct_plain
      Transfer.keysDistinct_shuffled Transfer.alike_shuffled
  have hencodes : (Transfer.codec.encode Transfer.plain false).toOption.isSome = true := by
    decide +kernel
  cases h : Transfer.codec.encode Transfer.plain false with
  | error e =>
    rw [h] at hencodes
    cases hencodes
  | ok bytes => exact ⟨bytes, rfl, (hsame.encode false bytes).1 h, hsame⟩

end FieldWire
