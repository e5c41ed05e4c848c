import Offside.Markup.VoidStyle
import Offside.Tag.Basic

/-!
# Fragments of markup

One tag becomes one fragment: the start tag of a container, which something must close later; a
whole element with its content; or a void element. In the start tag the identifier comes first,
the classes second and the other attributes after them in order, and in every value a double
quote is written as an entity, so that the value ends where it should.
-/

namespace Offside

/-- What the fragment of a tag is. -/
inductive Fragment.Kind where
  /-- A void element. -/
  | void
  /-- An element that is opened and closed again, its content between. -/
  | inline
  /-- The start tag of an element that stays open. -/
  | opening
  deriving DecidableEq, Repr

/-- The markup of one tag. -/
structure Fragment where
  kind : Fragment.Kind
  name : Text
  html : Text
  deriving DecidableEq, Repr

namespace Fragment

/-- The characters of a value as they stand between double quotes. -/
def escape (value : Text) : Text :=
  value.flatMap fun c => if c = '"' then "&quot;".toList else [c]

/-- One attribute, with the blank before it. -/
def assignment (key value : Text) : Text :=
  ' ' :: key ++ ['=', '"'] ++ escape value ++ ['"']

/-- The tag that closes an element. -/
def closingTag (name : Text) : Text :=
  ['<', '/'] ++ name ++ ['>']

end Fragment

namespace Tag

/-- All attributes of a tag in the order in which they are written. -/
def written (tag : Tag) : List (Text × Text) :=
  (tag.id.toList.map fun id => ("id".toList, id)) ++
    (if tag.classes = [] then [] else [("class".toList, [' '].intercalate tag.classes)]) ++
      tag.attributes.entries

/-- The start tag up to its end. -/
def head (tag : Tag) : Text :=
  '<' :: tag.name ++ tag.written.flatMap fun (key, value) => Fragment.assignment key value

/-- The fragment of a tag. -/
def fragment (style : VoidStyle) (tag : Tag) : Fragment :=
  if tag.isVoid then
    { kind := .void, name := tag.name, html := tag.head ++ style.terminator }
  else
    match tag.content with
    | some content =>
      { kind := .inline
        name := tag.name
        html := tag.head ++ ['>'] ++ content ++ Fragment.closingTag tag.name }
    | none => { kind := .opening, name := tag.name, html := tag.head ++ ['>'] }

end Tag

end Offside
