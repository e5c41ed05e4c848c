import Offside.Markup.VoidStyle

/-!
# Options

How a document is rendered: whether its markup is laid out anew or keeps the widths of the source,
how void elements end, and how many spaces a level of the layout takes.
-/

namespace Offside

/-- How a document is rendered. -/
structure Options where
  /-- Lay the markup out by depth, instead of keeping the widths of the source. -/
  formatOutput : Bool := true
  /-- How void elements end. -/
  voidStyle : VoidStyle := .xhtml
  /-- The number of spaces for each level of the layout. -/
  indentUnit : Nat := 2
  deriving DecidableEq, Repr

end Offside
