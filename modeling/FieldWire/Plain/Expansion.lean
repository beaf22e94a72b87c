import FieldWire.Address

/-!
# Extended addresses in plain objects

Before a plain object is read, every text in it that the address book knows as an extended address
is replaced by the hexadecimal digits of its account. A tag that the address carries becomes a
member of its own, which only two fields have. When that member is given as well, it must say the
same tag, unless it is null. Whether a member is given is decided by the object as it was, so the
outcome of one address does not hang on another.
-/

namespace FieldWire.Plain

/-- The member for the tag of an address field. -/
def tagField? (field : String) : Option String :=
  if field = "Account" then some "SourceTag"
  else if field = "Destination" then some "DestinationTag"
  else none

/-- The tag that a plain value says. -/
def tagOfJson? : Json → Option UInt32
  | .num n => n.uint64?.bind fun n => if n ≤ Text.maxUInt32 then some (UInt32.ofNat n) else none
  | .str text => Text.uint32? text
  | _ => none

/-- The parts of a plain value that is an extended address. -/
def extended? (book : AddressBook) (j : Json) : Option (AccountId × Option UInt32) :=
  j.str?.bind book.decodeExtended

/-- Puts the tag of an address into the members, of which `given` are those of the object as it
was. -/
def insertTag (given : Members Json) (field : String) (tag : UInt32) (members : Members Json) :
    Except Error (Members Json) :=
  match tagField? field with
  | none => .error (.unexpectedTag field)
  | some tagField =>
    match (Members.get? given tagField).filter fun j => !j.isNull with
    | none => .ok (Members.insert tagField (.nat tag.toNat) members)
    | some explicit =>
      if tagOfJson? explicit = some tag then
        .ok (Members.insert tagField (.nat tag.toNat) members)
      else .error (.mismatchedTag field tagField tag explicit)

/-- Replaces the extended addresses among the last members of an object in all its members. -/
def expandFrom (book : AddressBook) (given : Members Json) :
    (members : Members Json) → List (String × Json) → Except Error (Members Json)
  | members, [] => .ok members
  | members, (field, j) :: rest =>
    match extended? book j with
    | none => expandFrom book given members rest
    | some (account, tag) =>
      let members := Members.insert field (.str account.toHex) members
      match tag with
      | none => expandFrom book given members rest
      | some tag =>
        match insertTag given field tag members with
        | .error e => .error e
        | .ok members => expandFrom book given members rest

/-- The members of an object with its extended addresses replaced. -/
def expand (book : AddressBook) (given : Members Json) : Except Error (Members Json) :=
  expandFrom book given given given

end FieldWire.Plain
