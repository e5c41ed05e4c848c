import Offside.Diagnostic
import Offside.Line
import Offside.Markup.Layout
import Offside.Markup.Outline
import Offside.Options
import Offside.Tag.Reader

/-!
# Documents

A document is rendered line by line. Blank lines and comments are passed over. Every other line
closes what it must according to its width and then writes its own: a plain line its text, a tag
line the fragment of its tag. The lines so written are the document's outline; they are laid out
by depth, or placed at the widths of the source.
-/

namespace Offside

/-- Why a document cannot be rendered. -/
inductive RenderError where
  | nesting (error : NestingError)
  | tooWide (error : TooWide)
  deriving DecidableEq, Repr

/-- A rendered document: its markup, and what was remarked on the way. -/
structure Rendered where
  output : Text
  diagnostics : List Diagnostic
  deriving DecidableEq, Repr

/-- How documents are rendered: the options, and the table of void elements. -/
structure Renderer where
  options : Options := {}
  table : VoidTable := .html
  deriving DecidableEq, Repr

namespace Renderer

/-- What is remarked on a significant line. -/
def diagnose (r : Renderer) (line : Line) : List Diagnostic :=
  let number := line.number + 1
  (if line.mixesIndent then [.mixedIndent number] else []) ++
    match line.kind with
    | .text => if line.content.head? = some '!' then [.metadata number line.content] else []
    | .tag => (Tag.read r.table line.content).issues.map (.ofIssue number)
    | _ => []

/-- What a significant line writes, once its width has closed what it must. -/
def addLine (r : Renderer) (o : Outline) (line : Line) : Except NestingError Outline :=
  if line.kind = .tag then
    o.add (line.number + 1) line.indent
      ((Tag.read r.table line.content).tag.fragment r.options.voidStyle)
  else
    .ok (o.addText line.indent line.content)

/-- The outline of significant lines, carried on from one that is given. -/
def outlineFrom (r : Renderer) (o : Outline) : List Line → Except NestingError Outline
  | [] => .ok o
  | line :: rest => do
    let o ← r.addLine (o.closeUntil line.indent) line
    r.outlineFrom o rest

/-- The lines of markup of a document, each with its width. -/
def placedLines (r : Renderer) (lines : List Line) : Except NestingError (List PlacedLine) := do
  let o ← r.outlineFrom {} lines
  return o.finish

/-- The text of placed lines: laid out by depth, or at their widths. -/
def layOut (r : Renderer) (lines : List PlacedLine) : Except TooWide Text :=
  if r.options.formatOutput then
    Layout.formatLines r.options.indentUnit r.table (lines.map PlacedLine.text)
  else do
    let padded ← lines.mapM PlacedLine.padded
    return Text.unlines padded

/-- The significant lines of a source. -/
def significant (source : Text) : List Line :=
  (Line.ofSource source).filter Line.isSignificant

/-- Renders a document. -/
def render (r : Renderer) (source : Text) : Except RenderError Rendered := do
  let lines := significant source
  let placed ← (r.placedLines lines).mapError .nesting
  let output ← (r.layOut placed).mapError .tooWide
  return { output, diagnostics := lines.flatMap r.diagnose }

end Renderer

end Offside
