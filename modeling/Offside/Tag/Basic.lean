import Offside.Attributes.Basic

/-!
# Tags

A tag is what one line of shorthand says about an element: its name, its identifier, its classes,
its other attributes in order, the text that it holds on the same line, and whether it is void.
-/

namespace Offside

/-- One element, as a line of shorthand describes it. -/
structure Tag where
  name : Text
  id : Option Text := none
  classes : List Text := []
  attributes : Attributes := {}
  content : Option Text := none
  isVoid : Bool := false
  deriving DecidableEq, Repr

namespace Tag

/-- The name of an element whose line gives none. -/
def defaultName : Text :=
  ['d', 'i', 'v']

/-- The characters of an element's name: ASCII letters, digits and hyphens. -/
def isNameChar (c : Char) : Bool :=
  c.isAlphanum || c = '-'

/-- Something in a line of shorthand that is passed over rather than refused. -/
inductive Issue where
  /-- An opening brace that is never closed; its text is kept as content. -/
  | unclosedBlock
  /-- A piece of the attribute block that is not `key: value`. -/
  | bareEntry (piece : Text)
  /-- Content given to a void element, which is dropped. -/
  | contentOnVoid (content : Text)
  deriving DecidableEq, Repr

end Tag

end Offside
