import FieldWire.Decimal.Binary64
import FieldWire.Json.Members
import FieldWire.Text.Numeral

/-!
# Plain values

`Json` is the plain form of everything the codec reads and writes. A number is a whole number or a
binary one, as its spelling says; objects keep the order of their members. Nothing in the type keeps
a key from occurring twice: a reader that must refuse repeated keys can see them, and every other
reader merges them first (`Json.merged`).
-/

namespace FieldWire

/-- A plain number. -/
inductive Number where
  /-- A whole number. -/
  | int (n : Int)
  /-- A number with a fraction or an exponent, or too large for a word. -/
  | real (x : Binary64)
deriving DecidableEq, Repr

namespace Number

/-- The number as an unsigned word of 64 bits. -/
def uint64? : Number → Option Nat
  | int n => if 0 ≤ n ∧ n ≤ Text.maxUInt64 then some n.toNat else none
  | real _ => none

/-- The number as a signed word of 64 bits. -/
def int64? : Number → Option Int
  | int n => if Text.isInt64 n then some n else none
  | real _ => none

end Number

/-- A plain value. -/
inductive Json where
  /-- The absent value. -/
  | null
  /-- A truth value. -/
  | bool (b : Bool)
  /-- A number. -/
  | num (n : Number)
  /-- A text. -/
  | str (s : String)
  /-- A list. -/
  | arr (items : List Json)
  /-- Members in order. -/
  | obj (members : List (String × Json))

namespace Json

instance : Inhabited Json := ⟨null⟩

/-- A whole number. -/
def int (n : Int) : Json := num (.int n)

/-- A whole number that is not negative. -/
def nat (n : Nat) : Json := num (.int n)

/-- Whether this is the absent value. -/
def isNull : Json → Bool
  | null => true
  | _ => false

/-- The text, if this is one. -/
def str? : Json → Option String
  | str s => some s
  | _ => none

/-- The items, if this is a list. -/
def arr? : Json → Option (List Json)
  | arr items => some items
  | _ => none

/-- The members, if this is an object. -/
def obj? : Json → Option (Members Json)
  | obj members => some members
  | _ => none

/-- The truth value, if this is one. -/
def bool? : Json → Option Bool
  | bool b => some b
  | _ => none

/-- The number as an unsigned word of 64 bits, if this is one. -/
def uint64? : Json → Option Nat
  | num n => n.uint64?
  | _ => none

/-- The number as a signed word of 64 bits, if this is one. -/
def int64? : Json → Option Int
  | num n => n.int64?
  | _ => none

/-- The member of an object; other values have none. -/
def get? (j : Json) (key : String) : Option Json :=
  match j with
  | obj members => Members.get? members key
  | _ => none

/-! ### Height -/

mutual
/-- Levels of lists and objects. -/
def depth : Json → Nat
  | arr items => depthItems items + 1
  | obj members => depthMembers members + 1
  | _ => 0

/-- The greatest depth of the items. -/
def depthItems : List Json → Nat
  | [] => 0
  | item :: rest => max (depth item) (depthItems rest)

/-- The greatest depth of the members. -/
def depthMembers : List (String × Json) → Nat
  | [] => 0
  | (_, value) :: rest => max (depth value) (depthMembers rest)
end

/-! ### Merging repeated keys -/

mutual
/-- The value in which no object has a key twice. -/
def merged : Json → Json
  | arr items => arr (mergedItems items)
  | obj members => obj (mergedMembers members [])
  | j => j

/-- `merged` on every item. -/
def mergedItems : List Json → List Json
  | [] => []
  | item :: rest => merged item :: mergedItems rest

/-- Inserts the members, with merged values, behind those already merged. -/
def mergedMembers : List (String × Json) → Members Json → Members Json
  | [], done => done
  | (key, value) :: rest, done => mergedMembers rest (Members.insert key (merged value) done)
end

/-! ### Equality is decidable -/

mutual
/-- Decides equality of plain values. -/
def decEq : (a b : Json) → Decidable (a = b)
  | null, null => isTrue rfl
  | bool a, bool b => decidable_of_iff (a = b) (by simp)
  | num a, num b => decidable_of_iff (a = b) (by simp)
  | str a, str b => decidable_of_iff (a = b) (by simp)
  | arr a, arr b => @decidable_of_iff _ (a = b) (by simp) (decEqItems a b)
  | obj a, obj b => @decidable_of_iff _ (a = b) (by simp) (decEqMembers a b)
  | null, bool _ | null, num _ | null, str _ | null, arr _ | null, obj _
  | bool _, null | bool _, num _ | bool _, str _ | bool _, arr _ | bool _, obj _
  | num _, null | num _, bool _ | num _, str _ | num _, arr _ | num _, obj _
  | str _, null | str _, bool _ | str _, num _ | str _, arr _ | str _, obj _
  | arr _, null | arr _, bool _ | arr _, num _ | arr _, str _ | arr _, obj _
  | obj _, null | obj _, bool _ | obj _, num _ | obj _, str _ | obj _, arr _ =>
    isFalse (by simp)

/-- Decides equality of lists. -/
def decEqItems : (a b : List Json) → Decidable (a = b)
  | [], [] => isTrue rfl
  | x :: xs, y :: ys =>
    match decEq x y, decEqItems xs ys with
    | isTrue h, isTrue t => isTrue (by rw [h, t])
    | isFalse h, _ => isFalse (by simp [h])
    | _, isFalse t => isFalse (by simp [t])
  | [], _ :: _ | _ :: _, [] => isFalse (by simp)

/-- Decides equality of members. -/
def decEqMembers : (a b : List (String × Json)) → Decidable (a = b)
  | [], [] => isTrue rfl
  | (k, x) :: xs, (l, y) :: ys =>
    match decEq x y, decEqMembers xs ys with
    | isTrue h, isTrue t =>
      if e : k = l then isTrue (by rw [e, h, t]) else isFalse (by simp [e])
    | isFalse h, _ => isFalse (by simp [h])
    | _, isFalse t => isFalse (by simp [t])
  | [], _ :: _ | _ :: _, [] => isFalse (by simp)
end

instance : DecidableEq Json := decEq

end Json

end FieldWire
