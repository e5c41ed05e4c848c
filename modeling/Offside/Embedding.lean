import Offside.Document
import Offside.Json.Form

/-!
# Embedding

For a host that holds texts and switches rather than values of this library, such as an editor:
texts go in and texts come out, with structured results in JSON.
-/

namespace Offside

namespace Embedding

/-- The tag of a line, in JSON. -/
def tagJson (line : Text) : Text :=
  (Tag.read .html line).tag.toJson.write

/-- The diagnostics of a source, as a JSON array. A nesting error is the only one then. -/
def diagnosticsJson (source : Text) : Except TooWide Text :=
  match ({} : Renderer).render source with
  | .ok rendered => .ok (Json.array (rendered.diagnostics.map Diagnostic.toJson)).write
  | .error (.nesting e) =>
    let d : Diagnostic := { severity := .error, message := e.message }
    .ok (Json.array [d.toJson.sorted]).write
  | .error (.tooWide e) => .error e

/-- Why a text cannot be rendered for a host. -/
inductive EmbeddingError where
  | style (error : VoidStyle.Unknown)
  | render (error : RenderError)
  deriving DecidableEq, Repr

/-- The markup of a source, laid out or not, with the void style that a text asks for. -/
def renderWith (formatOutput : Bool) (style source : Text) : Except EmbeddingError Text := do
  let voidStyle ← (VoidStyle.parse style).mapError .style
  let rendered ←
    ((Renderer.mk { formatOutput, voidStyle } .html).render source).mapError .render
  return rendered.output

end Embedding

end Offside
