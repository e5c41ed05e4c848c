import Offside.Text.Blank

/-!
# How void elements end

The start tag of a void element ends as XHTML writes it or as HTML does. Styles are named in
settings and on the command line, in any ASCII case and with blanks around the name where a
reader asks for no more than the name.
-/

namespace Offside

/-- How the start tag of a void element ends. -/
inductive VoidStyle where
  | xhtml
  | html5
  | html4
  deriving DecidableEq, Repr

namespace VoidStyle

/-- All styles. -/
def all : List VoidStyle :=
  [.xhtml, .html5, .html4]

/-- The name of a style. -/
def name : VoidStyle → Text
  | .xhtml => "xhtml".toList
  | .html5 => "html5".toList
  | .html4 => "html4".toList

/-- The characters that end the start tag. -/
def terminator : VoidStyle → Text
  | .xhtml => [' ', '/', '>']
  | .html5 => ['>']
  | .html4 => ['>']

/-- The style with exactly this name. -/
def ofName? (name : Text) : Option VoidStyle :=
  all.find? (·.name = name)

/-- A style that is asked for but does not exist. -/
structure Unknown where
  asked : Text
  deriving DecidableEq, Repr

/-- How an unknown style is reported: as it was asked for. -/
def Unknown.message (u : Unknown) : Text :=
  "Unknown self-closing mode '".toList ++ u.asked ++
    "' (expected xhtml, html5 or html4)".toList

/-- The style that a text asks for, whatever the blanks around it and the case of its letters. -/
def parse (text : Text) : Except Unknown VoidStyle :=
  match ofName? ((Text.trim text).map Char.toLower) with
  | some style => .ok style
  | none => .error ⟨text⟩

/-- A style's name asks for that style. -/
@[simp] theorem ofName?_name (style : VoidStyle) : ofName? style.name = some style := by
  cases style <;> decide

end VoidStyle

end Offside
