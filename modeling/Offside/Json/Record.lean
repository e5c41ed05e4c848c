import Offside.Json.Basic

/-!
# Records in JSON

A record with named fields is written as an object, and may also be given as the array of its
fields in order. In an object unknown keys are passed over, whatever their values; a known key
that is repeated is refused. This module gives the fields of such a value, and the ways in which
a field may be asked for.
-/

namespace Offside

namespace Json

/-! ### Values of one kind -/

/-- A truth value. -/
def bool? : Json → Option Bool
  | .bool b => some b
  | _ => none

/-- A natural number below `2 ^ 64`. -/
def word? : Json → Option Nat
  | .number n => n.word?
  | _ => none

/-- A text. -/
def text? : Json → Option Text
  | .string t => t
  | _ => none

/-- A list of texts. -/
def texts? : Json → Option (List Text)
  | .array items => items.mapM text?
  | _ => none

/-- The members of an object, all of whose keys are texts. -/
def members? : Json → Option (List (Text × Json))
  | .object members => members.mapM fun (key, value) => key.map fun key => (key, value)
  | _ => none

/-- The members of an object, all of whose keys and values are texts. -/
def textMembers? (value : Json) : Option (List (Text × Text)) := do
  (← value.members?).mapM fun (key, value) => value.text?.map fun text => (key, text)

/-- One of several named values: its name, or an object with its name as the only key and
nothing as the value. What counts as nothing is up to the reader. -/
def choice? (isNothing : Json → Bool) (ofName? : Text → Option α) : Json → Option α
  | .string (some name) => ofName? name
  | .object [(some name, value)] => if isNothing value then ofName? name else none
  | _ => none

/-- The null value. -/
def isNull : Json → Bool
  | .null => true
  | _ => false

/-! ### Fields -/

/-- The value of a key that stands at most once among some members. -/
def once? (key : Text) (members : List (Text × Json)) : Option (Option Json) :=
  match members.filter (·.1 = key) with
  | [] => some none
  | [(_, value)] => some (some value)
  | _ => none

/-- The fields of an object, in the order of `keys`. -/
def objectFields? (keys : List Text) (value : Json) : Option (List (Option Json)) := do
  let members ← value.members?
  keys.mapM fun key => once? key members

/-- The fields of a record, in the order of `keys`: from an object, or from the array of the
fields, which may stop early if `partially` is set. -/
def fields? (keys : List Text) (partially : Bool) : Json → Option (List (Option Json))
  | .array items =>
    if items.length = keys.length ∨ (partially = true ∧ items.length ≤ keys.length) then
      some (items.map some ++ List.replicate (keys.length - items.length) none)
    else none
  | value => objectFields? keys value

/-- A field that must be there. -/
def required (read? : Json → Option α) (field : Option Json) : Option α :=
  field.bind read?

/-- A field that may be missing. -/
def withDefault (default : α) (read? : Json → Option α) : Option Json → Option α
  | none => some default
  | some value => read? value

/-- A field that may be missing or null. -/
def optional (read? : Json → Option α) : Option Json → Option (Option α)
  | none => some none
  | some .null => some none
  | some value => (read? value).map some

end Json

end Offside
