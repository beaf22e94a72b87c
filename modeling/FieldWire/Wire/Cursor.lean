import FieldWire.Error

/-!
# Reading bytes

A cursor stands in a byte string: it has the bytes that are left, how many were read, and how many
objects and arrays are open. A `Reader` takes bytes off a cursor or fails, and also a failure leaves
the cursor where the reader stood. Readers never look back, so what a reader does depends only on
the bytes that are left.
-/

namespace FieldWire

/-- A place in a byte string. -/
structure Cursor where
  /-- The bytes that are left. -/
  rest : List UInt8
  /-- The number of bytes read. -/
  position : Nat
  /-- The number of open objects and arrays. -/
  depth : Nat
deriving DecidableEq, Repr

namespace Cursor

/-- The start of a byte string. -/
def start (bytes : List UInt8) : Cursor := ⟨bytes, 0, 0⟩

/-- The number of bytes that are left. -/
def remaining (c : Cursor) : Nat := c.rest.length

/-- Whether at most `spare` bytes are left. -/
def isEnd (c : Cursor) (spare : Nat) : Bool := c.remaining ≤ spare

/-- The cursor behind the next `n` bytes. -/
def advance (c : Cursor) (n : Nat) : Cursor :=
  { c with rest := c.rest.drop n, position := c.position + n }

end Cursor

/-- A step that takes bytes off a cursor or fails. -/
abbrev Reader := EStateM Error Cursor

namespace Reader

/-- Fails unless `n` bytes are left; takes none. -/
def need (n : Nat) : Reader Unit := fun c =>
  if (c.rest.take n).length = n then .ok () c
  else .error (.bufferUnderrun n c.remaining) c

/-- The next byte, which stays. -/
def peek : Reader UInt8 := fun c =>
  match c.rest with
  | b :: _ => .ok b c
  | [] => .error (.bufferUnderrun 1 0) c

/-- Takes one byte. -/
def byte : Reader UInt8 := fun c =>
  match c.rest with
  | b :: rest => .ok b { c with rest := rest, position := c.position + 1 }
  | [] => .error (.bufferUnderrun 1 0) c

/-- Takes exactly `n` bytes. -/
def octets (n : Nat) : Reader (Octets n) := fun c =>
  if h : (c.rest.take n).length = n then .ok ⟨c.rest.take n, h⟩ (c.advance n)
  else .error (.bufferUnderrun n c.remaining) c

/-- Takes `n` bytes as a list. -/
def take (n : Nat) : Reader (List UInt8) := do
  let bytes ← octets n
  return bytes.toList

/-- Passes over `n` bytes. -/
def skip (n : Nat) : Reader Unit := do
  let _ ← octets n

/-- Takes a big-endian number of `width` bytes. -/
def number (width : Nat) : Reader Nat := do
  let bytes ← octets width
  return BigEndian.toNat bytes.toList

/-- Turns the outcome of a check into the outcome of a reader, which takes nothing. -/
def lift {α : Type} : Except Error α → Reader α
  | .ok a => fun c => .ok a c
  | .error e => fun c => .error e c

/-- Reports a failure of a reader in another way. -/
def mapError {α : Type} (f : Error → Error) (reader : Reader α) : Reader α := fun c =>
  match reader c with
  | .ok a c => .ok a c
  | .error e c => .error (f e) c

/-- Runs a reader one level deeper, if the limit allows, and comes back up whatever happens. -/
def nested {α : Type} (limit : Nat) (reader : Reader α) : Reader α := fun c =>
  if limit ≤ c.depth then .error (.nestingTooDeep limit) c
  else
    match reader { c with depth := c.depth + 1 } with
    | .ok a c => .ok a { c with depth := c.depth - 1 }
    | .error e c => .error e { c with depth := c.depth - 1 }

/-- Fails unless a length, where there is one, is the width of the kind. -/
def checkWidth (kind : Kind) (length : Option Nat) (width : Nat) : Reader Unit :=
  match length with
  | some n => if n = width then pure () else throw (.ofKind kind (.widthMismatch n width))
  | none => pure ()

end Reader

end FieldWire
