/-!
# Ordered members

The members of a plain object are a list of keys and values in the order in which they were given.
`insert` replaces the value of a key where it stands and puts a new key at the end, so a repeated
key keeps its first place and takes its last value (`merge`).
-/

namespace FieldWire

/-- Keys and values in order. -/
abbrev Members (β : Type) := List (String × β)

namespace Members

variable {β : Type}

/-- The value of a key. -/
def get? (members : Members β) (key : String) : Option β := List.lookup key members

/-- Gives a key a value: in its place, or at the end when the key is new. -/
def insert (key : String) (value : β) : Members β → Members β
  | [] => [(key, value)]
  | (k, v) :: rest => if k = key then (key, value) :: rest else (k, v) :: insert key value rest

/-- The keys in order. -/
def keys (members : Members β) : List String := members.map Prod.fst

/-- Members with every key once, in its first place and with its last value. -/
def merge (members : Members β) : Members β :=
  members.foldl (fun merged (key, value) => insert key value merged) []

@[simp] theorem get?_nil (key : String) : get? ([] : Members β) key = none := rfl

theorem get?_cons (k : String) (v : β) (rest : Members β) (key : String) :
    get? ((k, v) :: rest) key = if k = key then some v else get? rest key := by
  simp only [get?, List.lookup_cons]
  by_cases h : k = key
  · simp [h]
  · simp [h, beq_eq_false_iff_ne.2 (Ne.symm h)]

/-- An inserted key has its value and every other key keeps its own. -/
theorem get?_insert (key : String) (value : β) (members : Members β) (k : String) :
    get? (insert key value members) k = if key = k then some value else get? members k := by
  induction members with
  | nil => simp [insert, get?_cons]
  | cons m rest ih =>
    obtain ⟨a, b⟩ := m
    by_cases ha : a = key
    · subst ha
      simp only [insert, if_pos, get?_cons]
      split <;> rfl
    · simp only [insert, if_neg ha, get?_cons, ih]
      by_cases hk : key = k
      · subst hk; simp [ha]
      · simp [hk]

/-- Inserting adds at most its own key, at the end. -/
theorem keys_insert (key : String) (value : β) (members : Members β) :
    keys (insert key value members) =
      if key ∈ keys members then keys members else keys members ++ [key] := by
  induction members with
  | nil => simp [insert, keys]
  | cons m rest ih =>
    obtain ⟨a, b⟩ := m
    by_cases ha : a = key
    · subst ha; simp [insert, keys]
    · simp only [keys] at ih
      simp only [insert, if_neg ha, keys, List.map_cons, ih, List.mem_cons, Ne.symm ha, false_or]
      by_cases hk : key ∈ rest.map Prod.fst <;> simp [hk]

end Members

end FieldWire
