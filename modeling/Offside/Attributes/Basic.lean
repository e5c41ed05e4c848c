import Offside.Text.Basic

/-!
# Attributes in order

The attributes of a tag are a map from keys to values that remembers the order in which its keys
came first. Setting a key anew keeps its place and replaces its value.
-/

namespace Offside

/-- Attributes with their values, in order of first appearance of their keys. -/
structure Attributes where
  entries : List (Text × Text) := []
  deriving DecidableEq, Repr

namespace Attributes

/-- The keys in order. -/
def keys (a : Attributes) : List Text :=
  a.entries.map Prod.fst

/-- Entries with one key set: in its place if it is there, else at the end. -/
def setEntry (key value : Text) : List (Text × Text) → List (Text × Text)
  | [] => [(key, value)]
  | (k, v) :: rest => if k = key then (key, value) :: rest else (k, v) :: setEntry key value rest

/-- Sets a key: a key that is present keeps its place and takes the new value. -/
def insert (a : Attributes) (key value : Text) : Attributes :=
  ⟨setEntry key value a.entries⟩

/-- The value of a key. -/
def get? (a : Attributes) (key : Text) : Option Text :=
  a.entries.lookup key

/-- Attributes without one key; the others keep their order. -/
def erase (a : Attributes) (key : Text) : Attributes :=
  ⟨a.entries.filter (·.1 ≠ key)⟩

/-- Sets the keys of a list of pairs one after the other. -/
def insertAll (a : Attributes) (pairs : List (Text × Text)) : Attributes :=
  pairs.foldl (fun a (key, value) => a.insert key value) a

/-- The attributes that a list of pairs gives, set one after the other. -/
def ofList (pairs : List (Text × Text)) : Attributes :=
  insertAll {} pairs

/-- A key has the value that it was set to, and every other key keeps its own. -/
theorem lookup_setEntry (key value k : Text) (entries : List (Text × Text)) :
    (setEntry key value entries).lookup k = if k = key then some value else entries.lookup k := by
  induction entries with
  | nil =>
    by_cases h : k = key
    · rw [if_pos h, h, setEntry, List.lookup_cons_self]
    · rw [if_neg h, setEntry, List.lookup_cons, beq_false_of_ne h]
  | cons e rest ih =>
    obtain ⟨k', v'⟩ := e
    by_cases h' : k' = key
    · rw [setEntry, if_pos h', List.lookup_cons, List.lookup_cons, h']
      by_cases h : k = key
      · rw [if_pos h, h, beq_self_eq_true]
      · rw [if_neg h, beq_false_of_ne h]
    · rw [setEntry, if_neg h', List.lookup_cons, List.lookup_cons]
      by_cases hk : k = k'
      · rw [hk, beq_self_eq_true, if_neg h']
      · rw [beq_false_of_ne hk]
        exact ih

/-- What is found after a key was set. -/
@[simp] theorem get?_insert (a : Attributes) (key value k : Text) :
    (a.insert key value).get? k = if k = key then some value else a.get? k :=
  lookup_setEntry key value k a.entries

/-- Setting the keys of two lists in a row sets those of their concatenation. -/
theorem insertAll_append (a : Attributes) (xs ys : List (Text × Text)) :
    a.insertAll (xs ++ ys) = (a.insertAll xs).insertAll ys :=
  List.foldl_append

end Attributes

end Offside
