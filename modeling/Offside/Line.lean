import Offside.Text.Blank

/-!
# Source lines

A source is read line by line. What a line means depends on two things only: how wide its
indentation is, which is the number of blank characters it starts with, whatever their kind; and
the first character after them, which says whether the line is a comment, a tag or plain text.
-/

namespace Offside

/-- One line of a source: its position, counted from zero, and its characters. -/
structure Line where
  number : Nat
  raw : Text
  deriving DecidableEq, Repr

namespace Line

/-- What a line is. -/
inductive Kind where
  | blank
  | comment
  | tag
  | text
  deriving DecidableEq, Repr

/-- The width of the indentation: every leading blank counts as one column. -/
def indent (l : Line) : Nat :=
  (Text.leading l.raw).length

/-- The line without the blanks around it. -/
def content (l : Line) : Text :=
  Text.trim l.raw

/-- The kind that a line's first character that is not blank decides. -/
def Kind.ofContent : Text → Kind
  | [] => .blank
  | '/' :: _ => .comment
  | '%' :: _ => .tag
  | '#' :: _ => .tag
  | '.' :: _ => .tag
  | _ => .text

/-- The kind of a line. -/
def kind (l : Line) : Kind :=
  Kind.ofContent l.content

/-- Blank lines and comments have no meaning; every other line is significant. -/
def isSignificant (l : Line) : Bool :=
  l.kind != .blank && l.kind != .comment

/-- The indentation holds both a tab and a space. -/
def mixesIndent (l : Line) : Bool :=
  (Text.leading l.raw).contains '\t' && (Text.leading l.raw).contains ' '

/-- The lines of a text, numbered from zero. -/
def ofText (t : Text) : List Line :=
  (Text.lines t).zipIdx.map fun (raw, number) => ⟨number, raw⟩

/-- The lines of a source, in which a carriage return before a line feed belongs to the line
end. -/
def ofSource (t : Text) : List Line :=
  ofText (Text.unifyNewlines t)

end Line

end Offside
