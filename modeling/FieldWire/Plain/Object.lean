import FieldWire.Plain.Expansion
import FieldWire.Plain.Leaf
import FieldWire.Registry.Basic

/-!
# Plain objects and arrays

A plain object is read member by member, in its order, after its extended addresses are replaced. A
null member is passed over, and so is a field that is not written; every other member must name a
field that is no end marker. Fields with named values take a name or a known code. The fields end up
in the order of their sort keys. Where only signing fields are wanted, that holds of the outermost
object alone.

A plain array is a list of objects with one key, which names the field that wraps the element.

In the other direction fields keep their order, and a repeated field its first place and its last
value.
-/

namespace FieldWire

/-- What plain values are read and shown with. -/
structure Context where
  /-- The fields. -/
  registry : Registry
  /-- How accounts are written. -/
  addresses : AddressBook

namespace Plain

/-! ### Named values -/

/-- The code that a plain value stands for in a field with named values. -/
def enumCode (f : Field) (table : EnumTable) (j : Json) : Except Error Json :=
  let code : Option Int :=
    match j with
    | .str name => table.codeOf? name
    | .num n => n.int64?.filter fun code => (table.nameOf? code).isSome
    | _ => none
  match code with
  | some code => .ok (.int code)
  | none => .error (.unsupportedEnum f.name (j.str?.getD j.compact))

/-- The number of a word that can have names. -/
def wordCode? : Value → Option Nat
  | .uint8 n => some n.toNat
  | .uint16 n => some n.toNat
  | .uint32 n => some n.toNat
  | _ => none

/-- The name that a value has in a field with named values. -/
def enumName (f : Field) (table : EnumTable) (v : Value) : Except Error Json :=
  match wordCode? v with
  | none => .error (.typeMismatch f.name (.kind v.kind) .enumKind)
  | some code =>
    match table.nameOf? code with
    | some name => .ok (.str name)
    | none => .error (.unsupportedEnum f.name (toString code))

/-! ### From plain values -/

/-- The values that the kept items of a list stand for. -/
def collect {α β : Type} (convert : α → Except Error (Option β)) : List α → Except Error (List β)
  | [] => .ok []
  | a :: rest =>
    match convert a with
    | .error e => .error e
    | .ok none => collect convert rest
    | .ok (some b) =>
      match collect convert rest with
      | .error e => .error e
      | .ok bs => .ok (b :: bs)

variable (context : Context) (convert : Kind → Json → Except Error Value)

/-- The value of a field, given how to read one of a kind. -/
def valueOfField (f : Field) (j : Json) : Except Error Value :=
  match context.registry.enumTable? f.name with
  | none => withField f.name (convert f.kind j)
  | some table =>
    match enumCode f table j with
    | .error e => .error e
    | .ok code => withField f.name (convert f.kind code)

/-- The field of a member with its value; none if the member is passed over. -/
def fieldOfMember (onlySigning : Bool) (member : String × Json) :
    Except Error (Option (Field × Value)) :=
  if member.2.isNull then .ok none
  else
    match context.registry.fieldByName member.1 with
    | .error e => .error e
    | .ok f =>
      if f.isMarker then .error (.typeMismatch member.1 (.kind .object) .markerAsField)
      else if !f.serialized || (onlySigning && !f.signing) then .ok none
      else (valueOfField context convert f member.2).map fun v => some (f, v)

/-- The object of a plain value, given how to read the values of its fields. -/
def objectWith (onlySigning : Bool) (j : Json) : Except Error Object :=
  match j.obj? with
  | none => .error (.ofKind .object .notFields)
  | some members =>
    match expand context.addresses members with
    | .error e => .error e
    | .ok members =>
      (collect (fieldOfMember context convert onlySigning) members).map Object.sorted

/-- The element that an item of a plain array stands for. -/
def elementWith (item : Json) : Except Error Element :=
  match item with
  | .obj [(name, inner)] =>
    match context.registry.fieldByName name with
    | .error e => .error e
    | .ok f =>
      if f.isElement then
        (withField name (objectWith context convert false inner)).map fun fields => (f, fields)
      else .error (.typeMismatch name (.kind .array) .elementKind)
  | _ => .error (.ofKind .array .elementShape)

/-- The array of a plain value, given how to read the values of its elements' fields. -/
def arrayWith (j : Json) : Except Error (List Element) :=
  match j.arr? with
  | none => .error (.ofKind .array .notElements)
  | some items => collect (fun item => (elementWith context convert item).map some) items

/-- The value of a kind. Nested values are at least one level lower, so a `fuel` above the depth of
the plain value is never used up. -/
def valueWith : (fuel : Nat) → Kind → Json → Except Error Value
  | 0, kind, _ => .error (.ofKind kind .notFields)
  | fuel + 1, kind, j =>
    match Value.leafOfJson? context.addresses kind j with
    | some result => result
    | none =>
      if kind = .array then (arrayWith context (valueWith fuel) j).map Value.array
      else (objectWith context (valueWith fuel) false j).map Value.object

end Plain

/-- The value of a kind that a plain value stands for. -/
def Value.ofJson (context : Context) (kind : Kind) (j : Json) : Except Error Value :=
  Plain.valueWith context (j.depth + 1) kind j

/-- The object that a plain value stands for, with signing fields alone if these are wanted. -/
def Object.ofJson (context : Context) (onlySigning : Bool) (j : Json) : Except Error Object :=
  Plain.objectWith context (Plain.valueWith context j.depth) onlySigning j

/-! ### To plain values -/

namespace Value

variable (context : Context)

mutual
/-- The plain form of a value. -/
def toJson : Value → Except Error Json
  | .uint8 n => .ok (.nat n.toNat)
  | .uint16 n => .ok (.nat n.toNat)
  | .uint32 n => .ok (.nat n.toNat)
  | .uint64 n => .ok (.str (Hex.encode (BigEndian.ofNat 8 n.toNat)))
  | .hash128 hash => .ok (.str hash.toHex)
  | .hash160 hash => .ok (.str hash.toHex)
  | .hash256 hash => .ok (.str hash.toHex)
  | .account id => .ok (context.addresses.accountToJson id)
  | .blob bytes => .ok (.str (Hex.encode bytes))
  | .amount a => .ok (a.toJson context.addresses)
  | .currency c => .ok c.toJson
  | .issue i => .ok (i.toJson context.addresses)
  | .vector256 hashes => .ok (.arr (hashes.map fun hash => .str hash.toHex))
  | .pathSet paths => .ok (PathSet.toJson context.addresses paths)
  | .object fields => (fieldsToJson fields []).map Json.obj
  | .array elements => (elementsToJson elements).map Json.arr

/-- Inserts fields into members in their order. -/
def fieldsToJson : List (Field × Value) → Members Json → Except Error (Members Json)
  | [], members => .ok members
  | (f, v) :: rest, members =>
    match context.registry.enumTable? f.name with
    | some table =>
      match Plain.enumName f table v with
      | .error e => .error e
      | .ok j => fieldsToJson rest (Members.insert f.name j members)
    | none =>
      match toJson v with
      | .error e => .error e
      | .ok j => fieldsToJson rest (Members.insert f.name j members)

/-- The plain forms of elements. -/
def elementsToJson : List (Field × List (Field × Value)) → Except Error (List Json)
  | [] => .ok []
  | (f, fields) :: rest =>
    match fieldsToJson fields [] with
    | .error e => .error e
    | .ok members =>
      match elementsToJson rest with
      | .error e => .error e
      | .ok items => .ok (.obj [(f.name, .obj members)] :: items)
end

end Value

/-- The plain form of an object. -/
def Object.toJson (context : Context) (fields : Object) : Except Error Json :=
  (Value.fieldsToJson context fields []).map Json.obj

end FieldWire
