import FieldWire.Proofs.Codec.Projection
import FieldWire.Proofs.Codec.Signing

/-!
# Bytes do not depend on the address book

An address book says how accounts look in a plain value; on the wire they are twenty bytes, whatever
the book. So two codecs that differ in their lawful books alone decode the same bytes, and although
they show accounts in different ways, what each has decoded it encodes and signs as the same bytes
(`Codec.EncodesAlike`). One codec is held against the other by way of the fields that were read: the
members that either shows stand for the same fields in normal form (`Codec.standsFor_of_decode`), and
are therefore read alike, one by one (`Plain.Twins`).

Multisigning puts one more member between them, the empty public key, which no codec has shown. An
empty text is read the same with every book (`Value.agree_ofJson_empty`), except as an account: there
the book is asked, and its laws leave open what it makes of a text that is no address. So books
multisign alike exactly if they agree on the empty text, in registries where the public key is an
account (`Codec.encodesAlike_and_multisignsAlike_iff`). That exception is a real one
(`Codec.not_multisignsAlike_accountCodec`).
-/

namespace FieldWire

/-! ### Members one by one -/

/-- Members that are related one by one stay so when a key gets related values. -/
theorem Members.forall₂_insert {β γ : Type} {R : String × β → String × γ → Prop}
    (hkey : ∀ m m', R m m' → m.1 = m'.1) {key : String} {value : β} {value' : γ}
    (hinsert : R (key, value) (key, value')) {members : Members β} {members' : Members γ}
    (h : List.Forall₂ R members members') :
    List.Forall₂ R (insert key value members) (insert key value' members') := by
  induction h with
  | nil => exact .cons hinsert .nil
  | @cons m m' rest rest' hm hrest ih =>
    obtain ⟨k, v⟩ := m
    obtain ⟨k', v'⟩ := m'
    obtain rfl : k = k' := hkey _ _ hm
    rw [insert, insert]
    split
    · exact .cons hinsert hrest
    · exact .cons hm ih

namespace Plain

/-- The members have one key and are read alike for a signature, each in its context. -/
structure Twins (context context' : Context) (m m' : String × Json) : Prop where
  /-- The keys are the same. -/
  key_eq : m.1 = m'.1
  /-- Both are read as the same field with the same value, or are passed over, or both fail. -/
  agree : Agree (fieldOfMember context (Value.ofJson context) true m)
    (fieldOfMember context' (Value.ofJson context') true m')

variable {context context' : Context}

/-- Members that stand for the same field are twins. -/
theorem Twins.of_standsFor {m m' : String × Json} {p : Field × Value}
    (h : Value.StandsFor context m p) (h' : Value.StandsFor context' m' p) :
    Twins context context' m m' where
  key_eq := h.1.trans h'.1.symm
  agree := by
    have hm := fieldOfMember_signing (h.2 _ (Nat.lt_succ_self _))
    have hm' := fieldOfMember_signing (h'.2 _ (Nat.lt_succ_self _))
    rw [fieldOfMember_valueWith (Nat.lt_succ_self _)] at hm hm'
    rw [hm, hm']
    exact .refl _

end Plain

/-- Lawful contexts read objects of twins alike. -/
theorem Object.agree_ofJson_of_twins {context context' : Context}
    (hbook : context.addresses.IsLawful) (hbook' : context'.addresses.IsLawful)
    {members members' : Members Json}
    (h : List.Forall₂ (Plain.Twins context context') members members') :
    Agree (ofJson context true (.obj members)) (ofJson context' true (.obj members')) := by
  simp only [ofJson_eq, Plain.objectWith, Json.obj?,
    Plain.expand_of_unextended hbook.unextended, Plain.expand_of_unextended hbook'.unextended]
  exact (Plain.agree_collect (h.imp fun _ _ hm => hm.agree)).map Object.sorted

/-! ### The empty text -/

namespace AddressBook

/-- The empty text is not taken for digits, so the book alone decides what account it is. -/
theorem accountOfJson_empty_eq_ok_iff {book : AddressBook} {account : AccountId} :
    book.accountOfJson (.str "") = .ok account ↔ book.decodeAccount "" = .ok account := by
  have htext : book.accountOfText "" = book.decodeAccount "" := if_neg (by decide)
  simp only [accountOfJson, expectText, bind, Except.bind, htext]
  split
  · next h =>
    rw [h]
    constructor <;> rintro ⟨⟩
  · exact .rfl

end AddressBook

/-- The empty text is read alike with two books, except as an account. -/
theorem Value.agree_ofJson_empty (registry : Registry) {a b : AddressBook} {kind : Kind}
    (h : kind = .account → Agree (a.decodeAccount "") (b.decodeAccount "")) :
    Agree (ofJson ⟨registry, a⟩ kind (.str "")) (ofJson ⟨registry, b⟩ kind (.str "")) := by
  cases kind
  case account =>
    have hleaf : ∀ book, ofJson ⟨registry, book⟩ .account (.str "") =
        (do return account (← book.accountOfJson (.str ""))) := fun book => ofJson_leaf rfl
    rw [hleaf, hleaf]
    have haccount : Agree (a.accountOfJson (.str "")) (b.accountOfJson (.str "")) := fun account =>
      AddressBook.accountOfJson_empty_eq_ok_iff.trans
        ((h rfl account).trans AddressBook.accountOfJson_empty_eq_ok_iff.symm)
    exact haccount.bind fun _ => .refl _
  case object =>
    rw [ofJson_object, ofJson_object]
    exact .of_error _ _
  case array =>
    rw [ofJson_array, ofJson_array]
    exact .of_error _ _
  all_goals
    exact .refl _

/-! ### Public keys -/

/-- The field holds the public key of a signer, as an account that signatures cover. -/
def Field.IsAccountKey (f : Field) : Prop :=
  f.name = Codec.publicKeyField ∧ f.kind = .account ∧ f.serialized = true ∧ f.signing = true

instance (f : Field) : Decidable f.IsAccountKey :=
  inferInstanceAs (Decidable (_ ∧ _))

/-- Signatures cover the public key of a signer, and it is an account. -/
def Registry.SignsAccountKey (registry : Registry) : Prop :=
  ∃ f ∈ registry.fields, f.IsAccountKey

instance (registry : Registry) : Decidable registry.SignsAccountKey :=
  inferInstanceAs (Decidable (∃ f ∈ registry.fields, f.IsAccountKey))

/-- Public keys have no names. -/
theorem Registry.enumTable?_publicKeyField (registry : Registry) :
    registry.enumTable? Codec.publicKeyField = none := by
  simp [enumTable?, Codec.publicKeyField]

/-- The empty public key is read in the field of an account, for a signature. -/
theorem Field.IsAccountKey.takes {registry : Registry} {f : Field} (h : f.IsAccountKey)
    (hf : f ∈ registry.fields) : registry.Takes true f := by
  obtain ⟨hname, -, hs, hsigning⟩ := h
  refine ⟨hf, ?_, hs, fun _ => hsigning, ?_⟩
  · rw [isMarker, hname]
    decide
  · rw [hname, registry.enumTable?_publicKeyField]

/-- The empty public key is read alike with two books, except as an account. -/
theorem Plain.twins_publicKey {registry : Registry} {a b : AddressBook}
    (h : registry.SignsAccountKey → Agree (a.decodeAccount "") (b.decodeAccount "")) :
    Twins ⟨registry, a⟩ ⟨registry, b⟩ (Codec.publicKeyField, .str "")
      (Codec.publicKeyField, .str "") where
  key_eq := rfl
  agree := by
    have hnull : (Json.str "").isNull = false := rfl
    simp only [fieldOfMember, hnull, Bool.false_eq_true, if_false]
    cases hfield : registry.fieldByName Codec.publicKeyField with
    | error e => exact .refl _
    | ok f =>
      dsimp only
      split
      · exact .refl _
      · split
        · exact .refl _
        · next hkept =>
          have hname : f.name = Codec.publicKeyField := Registry.name_of_fieldByName hfield
          have hnames : registry.enumTable? f.name = none := by
            rw [hname, Registry.enumTable?_publicKeyField]
          have hvalue : Agree (Value.ofJson ⟨registry, a⟩ f.kind (.str ""))
              (Value.ofJson ⟨registry, b⟩ f.kind (.str "")) := by
            refine Value.agree_ofJson_empty registry fun hkind =>
              h ⟨f, Registry.mem_of_fieldByName hfield, hname, hkind, ?_⟩
            simpa using hkept
          simp only [valueOfField, hnames]
          exact (hvalue.mapError _ _).map _

/-! ### Codecs -/

namespace Codec

variable {codec : Codec} {a b : AddressBook}

/-- The codec with another address book. -/
def under (codec : Codec) (book : AddressBook) : Codec := { codec with addresses := book }

/-- Whether bytes are decoded depends on their fields and on the names of these alone. -/
theorem exists_decode_iff {bytes : List UInt8} : (∃ j, codec.decode bytes = .ok j) ↔
    bytes.length ≤ codec.maxInput ∧ ∃ fields,
      Object.ofBytes codec.registry codec.maxDepth bytes = .ok fields ∧
        Object.Obeys (.named codec.registry) fields := by
  simp only [decode_eq_ok_iff]
  constructor
  · rintro ⟨j, hsize, fields, hread, hshown⟩
    exact ⟨hsize, fields, hread, Object.exists_toJson_iff.1 ⟨j, hshown⟩⟩
  · rintro ⟨hsize, fields, hread, hnamed⟩
    obtain ⟨j, hj⟩ : ∃ j, fields.toJson codec.context = .ok j := Object.exists_toJson_iff.2 hnamed
    exact ⟨j, hsize, fields, hread, hj⟩

/-- What is decoded with a lawful book has members that stand for the fields of the bytes, brought
into normal form, and is read as these. -/
theorem standsFor_of_decode (hregistry : codec.registry.Regular)
    (hbook : codec.addresses.IsLawful) {bytes : List UInt8} {j : Json}
    (h : codec.decode bytes = .ok j) : ∃ fields members, j = .obj members ∧
      Object.ofBytes codec.registry codec.maxDepth bytes = .ok fields ∧
      List.Forall₂ (Value.StandsFor codec.context) members (Value.normalFields fields []) ∧
      Object.ofJson codec.context false j = .ok fields.normal := by
  obtain ⟨-, fields, hread, hshown⟩ := decode_eq_ok_iff.1 h
  have hformed := hregistry.accepted.wellFormed
  obtain ⟨hfits, -⟩ := Object.fits_of_ofBytes hregistry hread
  have hback := Object.ofJson_toJson_of_isLawful hformed hbook hfits hshown
  obtain ⟨members, hmembers, rfl⟩ := map_eq_ok_iff.1 hshown
  exact ⟨fields, members, rfl, hread,
    Value.forall₂_fieldsToJson hformed hbook fields hfits .nil hmembers, hback⟩

/-- A signer in a lawful book signs the object with the empty public key in it. -/
theorem multisigningData_eq_ok_iff (hbook : codec.addresses.IsLawful) {members : Members Json}
    {signer : AccountId} {data : List UInt8} :
    codec.multisigningData (.obj members) (codec.addresses.encodeAccount signer) = .ok data ↔
      ∃ fields body, Object.ofJson codec.context true
          (.obj (Members.insert publicKeyField (.str "") members)) = .ok fields ∧
        fields.toBytes = .ok body ∧ multisigningLead ++ body ++ signer.toList = data := by
  have hsigner : withField "signing_account"
      (codec.addresses.accountOfText (codec.addresses.encodeAccount signer)) = .ok signer :=
    Plain.withField_eq_ok_iff.2 (hbook.accountOfText_encodeAccount signer)
  rw [multisigningData_obj]
  simp only [hsigner, bind_eq_ok_iff, encode_eq_ok_iff, Except.ok.injEq,
    exists_eq_left']
  constructor
  · rintro ⟨body, ⟨fields, hfields, hbody⟩, hdata⟩
    exact ⟨fields, body, hfields, hbody, Except.ok.inj hdata⟩
  · rintro ⟨fields, body, hfields, hbody, rfl⟩
    exact ⟨body, ⟨fields, hfields, hbody⟩, rfl⟩

/-! ### Two books -/

section Books

variable (hregistry : codec.registry.Regular) (ha : a.IsLawful) (hb : b.IsLawful)
  {bytes : List UInt8} {j j' : Json} (hj : (codec.under a).decode bytes = .ok j)
  (hj' : (codec.under b).decode bytes = .ok j')
include hregistry ha hb hj hj'

/-- What two books decode of the same bytes are the same fields, and members that stand for them. -/
private theorem ofJson_under : ∃ members members', j = .obj members ∧ j' = .obj members' ∧
    List.Forall₂ (Plain.Twins (codec.under a).context (codec.under b).context) members members' ∧
    ∀ onlySigning, Object.ofJson (codec.under a).context onlySigning j =
      Object.ofJson (codec.under b).context onlySigning j' := by
  obtain ⟨fields, members, rfl, hread, hstands, hback⟩ :=
    @standsFor_of_decode (codec.under a) hregistry ha _ _ hj
  obtain ⟨fields', members', rfl, hread', hstands', hback'⟩ :=
    @standsFor_of_decode (codec.under b) hregistry hb _ _ hj'
  obtain rfl : fields = fields' := Except.ok.inj (hread.symm.trans hread')
  refine ⟨members, members', rfl, rfl, ?_, ?_⟩
  · refine (forall₂_of_common hstands hstands').imp ?_
    rintro m m' ⟨p, hm, hm'⟩
    exact .of_standsFor hm hm'
  · rintro (_ | _)
    · rw [hback, hback']
    · rw [Object.ofJson_signing hback, Object.ofJson_signing hback']

private theorem encode_under (onlySigning : Bool) :
    (codec.under a).encode j onlySigning = (codec.under b).encode j' onlySigning := by
  obtain ⟨-, -, -, -, -, hobject⟩ := ofJson_under hregistry ha hb hj hj'
  rw [encode_eq_bind, encode_eq_bind, hobject]

private theorem agree_multisigningData_under
    (hkey : codec.registry.SignsAccountKey → Agree (a.decodeAccount "") (b.decodeAccount ""))
    (signer : AccountId) :
    Agree ((codec.under a).multisigningData j (a.encodeAccount signer))
      ((codec.under b).multisigningData j' (b.encodeAccount signer)) := by
  obtain ⟨members, members', rfl, rfl, htwins, -⟩ := ofJson_under hregistry ha hb hj hj'
  have hinsert := Members.forall₂_insert (fun _ _ hm => hm.key_eq) (Plain.twins_publicKey hkey) htwins
  have hobject := @Object.agree_ofJson_of_twins _ _ ha hb _ _ hinsert
  intro data
  refine (@multisigningData_eq_ok_iff (codec.under a) ha _ _ _).trans ?_
  refine Iff.trans ?_ (@multisigningData_eq_ok_iff (codec.under b) hb _ _ _).symm
  exact exists_congr fun fields => exists_congr fun body => and_congr_left fun _ => hobject fields

end Books

/-- An account as the public key is the one that the book reads of the empty text. -/
private theorem ofJson_publicKey (hregistry : codec.registry.WellFormed)
    (hbook : codec.addresses.IsLawful) {f : Field} (hf : f ∈ codec.registry.fields)
    (hkey : f.IsAccountKey) {fields : Object} :
    Object.ofJson codec.context true (.obj [(publicKeyField, .str "")]) = .ok fields ↔
      ∃ account, codec.addresses.decodeAccount "" = .ok account ∧
        [(f, .account account)] = fields := by
  have htakes := hkey.takes hf
  obtain ⟨hname, hkind, -⟩ := hkey
  have hleaf : Value.ofJson codec.context .account (.str "") =
      (do return .account (← codec.addresses.accountOfJson (.str ""))) := Value.ofJson_leaf rfl
  have hextended : Plain.extended? codec.context.addresses (.str "") = none := hbook.unextended ""
  have hread := @Plain.objectWith_member_eq_ok_iff codec.context hregistry f true
    (Value.ofJson codec.context) htakes (.str "") rfl hextended fields
  rw [hname, hkind, hleaf, ← Object.ofJson_eq] at hread
  refine hread.trans ?_
  simp only [bind_eq_ok_iff, AddressBook.accountOfJson_empty_eq_ok_iff]
  constructor
  · rintro ⟨v, ⟨account, haccount, hv⟩, rfl⟩
    cases hv
    exact ⟨account, haccount, rfl⟩
  · rintro ⟨account, haccount, rfl⟩
    exact ⟨.account account, ⟨account, haccount, rfl⟩, rfl⟩

/-- Two books serve a codec alike where a single key signs, or none. -/
structure EncodesAlike (codec : Codec) (a b : AddressBook) : Prop where
  /-- The same bytes are decoded. -/
  decode : ∀ bytes, (∃ j, (codec.under a).decode bytes = .ok j) ↔
    ∃ j, (codec.under b).decode bytes = .ok j
  /-- What is decoded of the same bytes is encoded as the same bytes, or fails for the same reason. -/
  encode : ∀ ⦃bytes j j'⦄, (codec.under a).decode bytes = .ok j →
    (codec.under b).decode bytes = .ok j' → ∀ onlySigning,
      (codec.under a).encode j onlySigning = (codec.under b).encode j' onlySigning
  /-- What is decoded of the same bytes is signed as the same bytes, or fails for the same reason. -/
  signingData : ∀ ⦃bytes j j'⦄, (codec.under a).decode bytes = .ok j →
    (codec.under b).decode bytes = .ok j' →
      (codec.under a).signingData j = (codec.under b).signingData j'

/-- What two books decode of the same bytes is signed by one of many keys as the same bytes, if
each writes the signer, or fails with both. -/
def MultisignsAlike (codec : Codec) (a b : AddressBook) : Prop :=
  ∀ ⦃bytes j j'⦄, (codec.under a).decode bytes = .ok j → (codec.under b).decode bytes = .ok j' →
    ∀ signer, Agree ((codec.under a).multisigningData j (a.encodeAccount signer))
      ((codec.under b).multisigningData j' (b.encodeAccount signer))

theorem MultisignsAlike.symm (h : codec.MultisignsAlike a b) : codec.MultisignsAlike b a :=
  fun _ _ _ hj hj' signer => (h hj' hj signer).symm

/-- No bytes are decoded as an object without members. -/
private theorem decode_nil (codec : Codec) : codec.decode [] = .ok (.obj []) :=
  decode_eq_ok_iff.2 ⟨Nat.zero_le _, [], rfl, rfl⟩

/-- Books that multisign alike read the empty text as the same account, if it is signed as one. -/
private theorem decodeAccount_empty_of_multisignsAlike (hregistry : codec.registry.Regular)
    (ha : a.IsLawful) (hb : b.IsLawful) (hkey : codec.registry.SignsAccountKey)
    (h : codec.MultisignsAlike a b) {account : AccountId}
    (haccount : a.decodeAccount "" = .ok account) : b.decodeAccount "" = .ok account := by
  obtain ⟨f, hf, hkey⟩ := hkey
  have hformed := hregistry.accepted.wellFormed
  have hkind : f.kind = .account := hkey.2.1
  have hfits : ∀ x, Object.Obeys (.fits codec.registry) [(f, .account x)] := by
    intro x
    have htakes := hkey.takes hf
    exact Object.obeys_cons.2 ⟨⟨hf, htakes.serialized, htakes.not_marker, hkind.symm, trivial⟩,
      trivial, Object.obeys_nil⟩
  have hdelimited : Object.Obeys .delimited [(f, .account account)] :=
    Object.obeys_cons.2 ⟨fun harray => absurd (hkind.symm.trans harray) nofun, trivial,
      Object.obeys_nil⟩
  -- the object without members is signed with the account alone in it
  obtain ⟨body, hbody⟩ : ∃ body, Object.toBytes [(f, .account account)] = .ok body := by
    have hinner : (Value.account account).toBytes = .ok account.toList := by
      rw [Value.toBytes, Value.write, Writer.run_append]
    have hlength : account.toList.length ≤ LengthPrefix.maxLength := by
      rw [account.length_toList]
      decide
    obtain ⟨framed, hframed⟩ := (@Field.exists_frame_iff f _).2 fun _ => hlength
    exact ⟨_, Object.toBytes_cons_eq_ok_iff.2
      ⟨_, _, _, hinner, hframed, Object.toBytes_nil, rfl⟩⟩
  have hsigned : (codec.under a).multisigningData (.obj []) (a.encodeAccount account) =
      .ok (multisigningLead ++ body ++ account.toList) := by
    refine (@multisigningData_eq_ok_iff (codec.under a) ha _ _ _).2 ⟨_, body, ?_, hbody, rfl⟩
    exact (@ofJson_publicKey (codec.under a) hformed ha _ hf hkey _).2
      ⟨account, haccount, rfl⟩
  obtain ⟨fields, body', hfields, hbody', hdata⟩ :=
    (@multisigningData_eq_ok_iff (codec.under b) hb _ _ _).1
      ((h (decode_nil _) (decode_nil _) account _).1 hsigned)
  obtain ⟨account', haccount', rfl⟩ :=
    (@ofJson_publicKey (codec.under b) hformed hb _ hf hkey _).1 hfields
  obtain rfl : body' = body :=
    List.append_cancel_left (List.append_cancel_right hdata)
  cases Object.eq_of_toBytes_of_delimited hregistry (hfits account) (hfits account') hdelimited
    hbody hbody'
  exact haccount'

/-- **Bytes do not depend on the address book.** With two lawful books the same bytes are decoded,
and what is decoded, whatever accounts look like in it, is encoded and signed alike. It is also
multisigned alike, exactly if the books read the empty text alike where the public key of a signer
is an account that is signed. -/
theorem encodesAlike_and_multisignsAlike_iff (hregistry : codec.registry.Regular)
    (ha : a.IsLawful) (hb : b.IsLawful) :
    codec.EncodesAlike a b ∧
      (codec.MultisignsAlike a b ↔
        (codec.registry.SignsAccountKey → Agree (a.decodeAccount "") (b.decodeAccount ""))) := by
  refine ⟨⟨fun bytes => ?_, fun bytes j j' hj hj' => ?_, fun bytes j j' hj hj' => ?_⟩,
    fun h hkey account => ⟨?_, ?_⟩, fun hkey bytes j j' hj hj' => ?_⟩
  · exact (@exists_decode_iff (codec.under a) _).trans (@exists_decode_iff (codec.under b) _).symm
  · exact encode_under hregistry ha hb hj hj'
  · rw [signingData_eq_map, signingData_eq_map, encode_under hregistry ha hb hj hj']
  · exact decodeAccount_empty_of_multisignsAlike hregistry ha hb hkey h
  · exact decodeAccount_empty_of_multisignsAlike hregistry hb ha hkey h.symm
  · exact agree_multisigningData_under hregistry ha hb hj hj' hkey

end Codec

/-! ### Addresses with a letter -/

namespace AddressBook

/-- The book that writes a letter in front of the hexadecimal digits of an account, and takes the
empty text for the account of zeros. -/
def lettered : AddressBook where
  decodeAccount text :=
    match text.toList with
    | [] => .ok (.zero 20)
    | 'r' :: digits => Octets.ofHex .account 20 (String.ofList digits)
    | _ => .error (.ofKind .account (.notAddress text))
  encodeAccount account := String.ofList ('r' :: account.toHex.toList)
  decodeExtended _ := none

theorem isLawful_lettered : lettered.IsLawful where
  decode_encode account := by
    simp [lettered]
  digits account h := by
    have hlength : (utf8Bytes account.toHex).length = 40 := by
      rw [Octets.toHex, Hex.length_utf8Bytes_encode, account.length_toList]
    have hletter : (utf8Bytes (lettered.encodeAccount account)).length = 41 := by
      simp only [utf8Bytes, lettered, String.toList_ofList, List.flatMap_cons, List.length_append]
      rw [← utf8Bytes, hlength]
      decide
    simp [isHexAccount, hletter] at h
  unextended _ := rfl

end AddressBook

/-- A schema with an account and the public key of a signer, of the given type. -/
def keyedSchema (keyType : String) : Schema where
  types := [("Blob", 7), ("AccountID", 8), ("STObject", 14), ("STArray", 15)]
  fields :=
    [⟨"ObjectEndMarker", 1, false, true, true, "STObject"⟩,
     ⟨"ArrayEndMarker", 1, false, true, true, "STArray"⟩,
     ⟨"Account", 1, true, true, true, "AccountID"⟩,
     ⟨"SigningPubKey", 3, true, true, true, keyType⟩]
  transactionTypes := []
  transactionResults := []
  ledgerEntryTypes := []

namespace Keyed

/-- The registry of a schema with a public key. -/
def registry (keyKind : Kind) (keyType : Nat) : Registry where
  fields := [⟨objectEndName, .object, ⟨14, 1⟩, false, true, true⟩,
    ⟨arrayEndName, .array, ⟨15, 1⟩, false, true, true⟩,
    ⟨"Account", .account, ⟨8, 1⟩, true, true, true⟩,
    ⟨Codec.publicKeyField, keyKind, ⟨keyType, 3⟩, true, true, true⟩]
  typeCodes := [("Blob", 7), ("AccountID", 8), ("STObject", 14), ("STArray", 15)]
  transactionTypes := ⟨[]⟩
  transactionResults := ⟨[]⟩
  ledgerEntryTypes := ⟨[]⟩

/-- The codec with a public key in bytes. -/
def bytesCodec : Codec := .ofRegistry (registry .blob 7)

/-- The codec with an account as the public key. -/
def accountCodec : Codec := .ofRegistry (registry .account 8)

theorem regular_bytesCodec : bytesCodec.registry.Regular := by
  refine Registry.regular_of_load (show Registry.load (keyedSchema "Blob") = _ from rfl) ?_
    (by decide)
  unfold Schema.NamesDistinct
  decide

theorem regular_accountCodec : accountCodec.registry.Regular := by
  refine Registry.regular_of_load (show Registry.load (keyedSchema "AccountID") = _ from rfl) ?_
    (by decide)
  unfold Schema.NamesDistinct
  decide

end Keyed

namespace Codec

/-- An account is decoded with digits alone and with a letter, and the two plain forms are encoded,
signed and multisigned alike, where the public key is in bytes. -/
theorem multisignsAlike_bytesCodec :
    (Keyed.bytesCodec.under .hex).decode (0x81 :: 0x14 :: List.replicate 20 0) =
        .ok (.obj [("Account", .str (AddressBook.hex.encodeAccount (.zero 20)))]) ∧
      (Keyed.bytesCodec.under .lettered).decode (0x81 :: 0x14 :: List.replicate 20 0) =
        .ok (.obj [("Account", .str (AddressBook.lettered.encodeAccount (.zero 20)))]) ∧
      Keyed.bytesCodec.EncodesAlike .hex .lettered ∧
      Keyed.bytesCodec.MultisignsAlike .hex .lettered := by
  obtain ⟨hencodes, hmultisigns⟩ := encodesAlike_and_multisignsAlike_iff
    Keyed.regular_bytesCodec AddressBook.isLawful_hex AddressBook.isLawful_lettered
  have hkey : ¬Keyed.bytesCodec.registry.SignsAccountKey := by decide
  exact ⟨rfl, rfl, hencodes, hmultisigns.2 fun h => absurd h hkey⟩

/-- **An account as the public key depends on the address book.** No bytes are decoded as an object
without members in any book; with letters it is multisigned, as the empty public key is the account
of zeros, and with digits alone it is not. -/
theorem not_multisignsAlike_accountCodec :
    Keyed.accountCodec.registry.Regular ∧ AddressBook.hex.IsLawful ∧
      AddressBook.lettered.IsLawful ∧
      (Keyed.accountCodec.under .hex).decode [] = .ok (.obj []) ∧
      (Keyed.accountCodec.under .lettered).decode [] = .ok (.obj []) ∧
      (Keyed.accountCodec.under .hex).multisigningData (.obj [])
          (AddressBook.hex.encodeAccount (.zero 20)) =
        .error (.typeMismatch publicKeyField (.kind .account) (.hexLength 40 0)) ∧
      (Keyed.accountCodec.under .lettered).multisigningData (.obj [])
          (AddressBook.lettered.encodeAccount (.zero 20)) =
        .ok (multisigningLead ++ 0x83 :: 0x14 :: List.replicate 40 0) ∧
      ¬Keyed.accountCodec.MultisignsAlike .hex .lettered := by
  have hdigits : (Keyed.accountCodec.under .hex).multisigningData (.obj [])
      (AddressBook.hex.encodeAccount (.zero 20)) =
        .error (.typeMismatch publicKeyField (.kind .account) (.hexLength 40 0)) := by
    rw [multisigningData_obj]
    rfl
  have hletters : (Keyed.accountCodec.under .lettered).multisigningData (.obj [])
      (AddressBook.lettered.encodeAccount (.zero 20)) =
        .ok (multisigningLead ++ 0x83 :: 0x14 :: List.replicate 40 0) := by
    rw [multisigningData_obj]
    rfl
  refine ⟨Keyed.regular_accountCodec, AddressBook.isLawful_hex, AddressBook.isLawful_lettered,
    decode_nil _, decode_nil _, hdigits, hletters, fun h => ?_⟩
  have hsigned := (h (decode_nil _) (decode_nil _) (.zero 20) _).2 hletters
  rw [hdigits] at hsigned
  cases hsigned

end Codec

end FieldWire
