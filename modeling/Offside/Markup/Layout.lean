import Offside.Markup.Padding
import Offside.Text.Blank
import Offside.VoidTable

/-!
# Layout by depth

Markup can be laid out anew from its text alone. Each line is trimmed and indented by the number
of elements open around it, where a line's start says what it does: a closing tag ends an element
before the line, a start tag that the line itself does not end begins one after it, and every
other line leaves the depth as it is. Empty lines stay empty. Since a line's effect depends only
on its trimmed text, laying out twice is laying out once.
-/

namespace Offside

namespace Layout

/-- What a line does to the depth. -/
inductive Shape where
  /-- One element fewer is open, from this line on. -/
  | closing
  /-- One element more is open, after this line. -/
  | opening
  /-- The depth stays. -/
  | level
  deriving DecidableEq, Repr

/-- The characters that end the name in a start tag. -/
def endsName (c : Char) : Bool :=
  isBlank c || c = '>' || c = '/'

/-- The name in the start tag whose opening bracket has just been read. -/
def tagName (afterBracket : Text) : Text :=
  afterBracket.takeWhile fun c => !endsName c

/-- Whether a line with a start tag of this name also ends the element. -/
def endsItself (table : VoidTable) (line name : Text) : Bool :=
  ['/', '>'].isSuffixOf line || table.contains name ||
    Text.occursIn (['<', '/'] ++ name ++ ['>']) line

/-- What a trimmed line does to the depth. -/
def shape (table : VoidTable) (line : Text) : Shape :=
  match line with
  | '<' :: '/' :: _ => .closing
  | '<' :: rest =>
    let name := tagName rest
    if name.head?.any Char.isAlpha && !endsItself table line name then .opening else .level
  | _ => .level

/-- The depth that a line of this shape is placed at. -/
def Shape.depthAt (depth : Nat) : Shape → Nat
  | .closing => depth - 1
  | _ => depth

/-- The depth after a line of this shape. -/
def Shape.depthAfter (depth : Nat) : Shape → Nat
  | .closing => depth - 1
  | .opening => depth + 1
  | .level => depth

/-- Lays out lines, `depth` elements being open before the first. -/
def placeFrom (unit : Nat) (table : VoidTable) (depth : Nat) :
    List Text → Except TooWide (List Text)
  | [] => .ok []
  | line :: rest =>
    match Text.trim line with
    | [] => do
      let placed ← placeFrom unit table depth rest
      return [] :: placed
    | trimmed => do
      let s := shape table trimmed
      let first ← pad (s.depthAt depth * unit) trimmed
      let placed ← placeFrom unit table (s.depthAfter depth) rest
      return first :: placed

/-- Lays out lines of markup, `unit` spaces for each open element. -/
def formatLines (unit : Nat) (table : VoidTable) (lines : List Text) : Except TooWide Text := do
  let placed ← placeFrom unit table 0 lines
  return Text.unlines placed

/-- Lays out markup. -/
def format (unit : Nat) (table : VoidTable) (markup : Text) : Except TooWide Text :=
  formatLines unit table (Text.lines markup)

end Layout

end Offside
