import FieldWire.Toml.Basic

/-!
# Tables of a document

Keys with points and table headers build tables within tables. A table is defined once: by its
header, by the points of keys, or as one value. What a table came from decides what may still be
added to it, so that is kept until the document is complete.
-/

namespace FieldWire.Toml

/-- What a table came from. -/
inductive Origin where
  /-- Its own header, or the document. -/
  | header
  /-- The header of a table inside it. -/
  | path
  /-- The point of a key. -/
  | point
deriving DecidableEq, Repr

/-- A value or table of a document that is not yet complete. -/
inductive Node where
  /-- A complete value. -/
  | value (v : Value)
  /-- A table and what it came from. -/
  | table (origin : Origin) (members : List (String × Node))
  /-- A list of tables with one header each (last one first). -/
  | tables (items : List (List (String × Node)))

/-- The members of an incomplete table. -/
abbrev Nodes := Members Node

/-- Changes the table at the end of a path, where missing tables have the given origin. Points of a
key do not lead through tables that have their own header. -/
def descend (origin : Origin) (change : Origin → Nodes → Option Nodes) :
    (path : List String) → (self : Origin) → Nodes → Option Nodes
  | [], self, members => change self members
  | key :: path, _, members =>
    match Members.get? members key with
    | none => do
      let inner ← descend origin change path origin []
      return Members.insert key (.table origin inner) members
    | some (.table own inner) =>
      if origin = .point ∧ own = .header then none
      else do
        let inner ← descend origin change path own inner
        return Members.insert key (.table own inner) members
    | some (.tables (last :: before)) => do
      let last ← descend origin change path .header last
      return Members.insert key (.tables (last :: before)) members
    | some (.tables []) => none
    | some (.value _) => none

/-- Gives a new key a value, in a table that the points of the key lead to. -/
def define (points : List String) (key : String) (v : Value) (self : Origin) (members : Nodes) :
    Option Nodes :=
  descend .point (fun own members =>
    if decide (own = .point) = points.isEmpty then none
    else
      match Members.get? members key with
      | none => some (members ++ [(key, .value v)])
      | some _ => none) points self members

/-- Opens the table of a header. -/
def openTable (path : List String) (key : String) (members : Nodes) : Option Nodes :=
  descend .path (fun _ members =>
    match Members.get? members key with
    | none => some (members ++ [(key, .table .header [])])
    | some (.table .path inner) => some (Members.insert key (.table .header inner) members)
    | some _ => none) path .header members

/-- Opens the next table of a list of tables. -/
def openListed (path : List String) (key : String) (members : Nodes) : Option Nodes :=
  descend .path (fun _ members =>
    match Members.get? members key with
    | none => some (members ++ [(key, .tables [[]])])
    | some (.tables items) => some (Members.insert key (.tables ([] :: items)) members)
    | some _ => none) path .header members

/-- Gives a new key a value in the table that was opened last. -/
def defineIn (table : List String) (points : List String) (key : String) (v : Value)
    (members : Nodes) : Option Nodes :=
  descend .path (define points key v) table .header members

mutual
/-- The value that a node has become. -/
def Node.complete : Node → Value
  | .value v => v
  | .table _ members => .table (completeMembers members)
  | .tables items => .list (completeTables items [])

/-- The values that members have become. -/
def completeMembers : List (String × Node) → Table
  | [] => []
  | (key, node) :: rest => (key, node.complete) :: completeMembers rest

/-- The tables that listed tables (last one first) have become, before those given. -/
def completeTables : List (List (String × Node)) → List Value → List Value
  | [], done => done
  | members :: before, done => completeTables before (.table (completeMembers members) :: done)
end

end FieldWire.Toml
