import Offside.Json.Number

/-!
# JSON values

A value is kept close to how it was written, so that each reader can decide how much it asks for:
a number keeps its digits, an object keeps its members in order with repeated keys, and a string
literal whose escapes name half of a surrogate pair stands for no text at all. The measures
`depth` and `isPlain` say what it takes to hold a value in memory whole.
-/

namespace Offside

/-- A JSON value. The text of a string literal or key is absent when an unpaired surrogate
escape leaves it without one. -/
inductive Json where
  | null
  | bool (value : Bool)
  | number (value : Json.Number)
  | string (text : Option Text)
  | array (items : List Json)
  | object (members : List (Option Text × Json))
  deriving Repr

namespace Json

/-- The value of a natural number. -/
def ofNat (n : Nat) : Json :=
  .number (.ofNat n)

/-- The value of a text. -/
def ofText (t : Text) : Json :=
  .string (some t)

/-- An object whose members are named by strings. -/
def record (members : List (String × Json)) : Json :=
  .object (members.map fun (key, value) => (some key.toList, value))

mutual

/-- How deep arrays and objects are nested; a value that is neither has depth zero. -/
def depth : Json → Nat
  | .array items => depthItems items + 1
  | .object members => depthMembers members + 1
  | _ => 0

/-- The depth of the deepest of some values. -/
def depthItems : List Json → Nat
  | [] => 0
  | item :: rest => max (depth item) (depthItems rest)

/-- The depth of the deepest value of some members. -/
def depthMembers : List (Option Text × Json) → Nat
  | [] => 0
  | (_, value) :: rest => max (depth value) (depthMembers rest)

end

mutual

/-- Every string and key is a text, and every number is finite. -/
def isPlain : Json → Bool
  | .number n => n.isFinite
  | .string t => t.isSome
  | .array items => arePlainItems items
  | .object members => arePlainMembers members
  | _ => true

/-- All of some values are plain. -/
def arePlainItems : List Json → Bool
  | [] => true
  | item :: rest => isPlain item && arePlainItems rest

/-- All keys are texts and all values are plain. -/
def arePlainMembers : List (Option Text × Json) → Bool
  | [] => true
  | (key, value) :: rest => key.isSome && isPlain value && arePlainMembers rest

end

end Json

end Offside
