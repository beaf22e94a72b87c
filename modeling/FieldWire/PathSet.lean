import FieldWire.Address
import FieldWire.Currency

/-!
# Path sets

A path set offers alternative ways for a payment. A way is a list of steps, and a step names an
account, a currency, an issuer, or several of them. On the wire a step is a tag that announces its
members, followed by them; a separator stands between the paths and an end byte behind the last one.
-/

namespace FieldWire

/-- One step of a path. -/
structure PathStep where
  /-- The account passed through. -/
  account : Option AccountId
  /-- The currency changed to. -/
  currency : Option Currency
  /-- The issuer of that currency. -/
  issuer : Option AccountId
deriving DecidableEq

/-- A way for a payment. -/
abbrev Path := List PathStep

/-- Alternative ways for a payment. -/
abbrev PathSet := List Path

/-- The byte between two paths. -/
def pathSeparator : UInt8 := 0xFF

/-- The byte behind the last path. -/
def pathSetEnd : UInt8 := 0x00

namespace PathStep

/-- The bit of a step with an account. -/
def accountBit : UInt8 := 0x01

/-- The bit of a step with a currency. -/
def currencyBit : UInt8 := 0x10

/-- The bit of a step with an issuer. -/
def issuerBit : UInt8 := 0x20

/-- The byte that announces the members. -/
def tag (step : PathStep) : UInt8 :=
  (if step.account.isSome then accountBit else 0) |||
    (if step.currency.isSome then currencyBit else 0) |||
      (if step.issuer.isSome then issuerBit else 0)

/-! ### Plain form -/

/-- The value of a member, if there is one. -/
def member {α : Type} (members : Members Json) (key : String) (convert : Json → Except Error α) :
    Except Error (Option α) :=
  match Members.get? members key with
  | none => .ok none
  | some j => (convert j).map some

/-- The step of a plain object; members of other names are passed over. -/
def ofJson (book : AddressBook) (j : Json) : Except Error PathStep := do
  match j.obj? with
  | none => throw (.malformedPathStep .notObject)
  | some members =>
    let account ← member members "account" book.accountOfJson
    let currency ← member members "currency" Currency.ofJson
    let issuer ← member members "issuer" book.accountOfJson
    if account.isNone ∧ currency.isNone ∧ issuer.isNone then throw (.malformedPathStep .empty)
    return ⟨account, currency, issuer⟩

/-- The plain form of a step. -/
def toJson (book : AddressBook) (step : PathStep) : Json :=
  let account := step.account.toList.map fun a => ("account", book.accountToJson a)
  let currency := step.currency.toList.map fun c => ("currency", c.toJson)
  let issuer := step.issuer.toList.map fun a => ("issuer", book.accountToJson a)
  .obj (account ++ currency ++ issuer)

/-! ### Written form -/

/-- The bytes of a step. -/
def bytes (step : PathStep) : List UInt8 :=
  let account := step.account.toList.flatMap Octets.toList
  let currency := step.currency.toList.flatMap fun c => c.bytes.toList
  let issuer := step.issuer.toList.flatMap Octets.toList
  step.tag :: (account ++ currency ++ issuer)

/-- Takes a member that a tag announces by a bit. -/
def readMember (tag bit : UInt8) : Reader (Option (Octets 20)) :=
  if tag &&& bit = 0 then pure none
  else some <$> Reader.mapError (fun _ => .malformedPathStep (.truncated tag)) (Reader.octets 20)

/-- Takes a step. -/
def read : Reader PathStep := do
  let tag ← Reader.byte
  if tag &&& ~~~(accountBit ||| currencyBit ||| issuerBit) ≠ 0 then
    throw (.malformedPathStep (.unknownBits tag))
  let account ← readMember tag accountBit
  let currency ← match ← readMember tag currencyBit with
    | none => pure none
    | some bytes => some <$> Reader.lift (Currency.checked ⟨bytes⟩)
  let issuer ← readMember tag issuerBit
  return ⟨account, currency, issuer⟩

end PathStep

namespace PathSet

/-! ### Plain form -/

/-- The path of a plain list of steps, at least one. -/
def pathOfJson (book : AddressBook) (j : Json) : Except Error Path :=
  match j.arr? with
  | none => .error (.malformedPathSet .pathNotList)
  | some [] => .error (.malformedPathSet .emptyPath)
  | some steps => steps.mapM (PathStep.ofJson book)

/-- The path set of a plain list of paths, at least one. -/
def ofJson (book : AddressBook) (j : Json) : Except Error PathSet :=
  match j.arr? with
  | none => .error (.malformedPathSet .notList)
  | some [] => .error (.malformedPathSet .empty)
  | some paths => paths.mapM (pathOfJson book)

/-- The plain form of a path set. -/
def toJson (book : AddressBook) (paths : PathSet) : Json :=
  .arr (paths.map fun path => .arr (path.map (PathStep.toJson book)))

/-! ### Written form -/

/-- The bytes of the steps of a path. -/
def stepBytes (path : Path) : List UInt8 := path.flatMap PathStep.bytes

/-- The bytes of paths, at least one, with separators between them and the end byte behind. -/
def bytesFrom : Path → List Path → List UInt8
  | path, [] => stepBytes path ++ [pathSetEnd]
  | path, next :: rest => stepBytes path ++ pathSeparator :: bytesFrom next rest

/-- The bytes of a path set; one without paths has none. -/
def bytes : PathSet → Except Error (List UInt8)
  | [] => .error (.malformedPathSet .empty)
  | path :: rest => .ok (bytesFrom path rest)

/-- Takes steps up to a separator or the end byte, behind those already taken (last one first).
Every step takes a byte, so a `fuel` above the number of bytes left is never used up. -/
def readSteps : (fuel : Nat) → (taken : Path) → Reader Path
  | 0, _ => throw (.malformedPathSet .unterminated)
  | fuel + 1, taken => do
    let next ← Reader.mapError (fun _ => .malformedPathSet .unterminated) Reader.peek
    if next = pathSeparator ∨ next = pathSetEnd then return taken.reverse
    else
      let step ← PathStep.read
      readSteps fuel (step :: taken)

/-- Takes paths up to the end byte, behind those already taken (last one first). Every path takes a
byte, so a `fuel` above the number of bytes left is never used up. -/
def readPaths : (fuel : Nat) → (taken : List Path) → Reader PathSet
  | 0, _ => throw (.malformedPathSet .unterminated)
  | fuel + 1, taken => do
    let path ← readSteps (fuel + 1) []
    if path.isEmpty then throw (.malformedPathSet .emptyPath)
    let delimiter ← Reader.byte
    if delimiter = pathSetEnd then return (path :: taken).reverse
    else readPaths fuel (path :: taken)

/-- Takes a path set. -/
def read : Reader PathSet := do
  let c ← get
  readPaths (c.remaining + 1) []

end PathSet

end FieldWire
