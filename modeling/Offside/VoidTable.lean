import Offside.Text.Basic

/-!
# Void elements

A void element never takes children and has no closing tag. Which names are void is a table, so
that a document may bring its own; names are looked up without regard to ASCII case.
-/

namespace Offside

/-- The names of the void elements, in order. -/
structure VoidTable where
  names : List Text
  deriving DecidableEq, Repr

namespace VoidTable

/-- The void elements of HTML. -/
def html : VoidTable where
  names := ["area", "base", "br", "col", "embed", "hr", "img", "input", "link", "meta", "param",
    "source", "track", "wbr"].map String.toList

/-- Whether a name stands in the table, up to ASCII case. -/
def contains (table : VoidTable) (name : Text) : Bool :=
  table.names.any (Text.sameIgnoringCase · name)

end VoidTable

end Offside
