import Offside.Attributes.Block
import Offside.Attributes.Entry
import Offside.Tag.Basic
import Offside.Tag.Selector
import Offside.VoidTable

/-!
# Reading a tag line

A tag line is a name marked by `%`, identifiers and classes, a block of attributes and content,
each of them optional. The name comes first. The block is found next, so that selectors are
looked for on either side of it but never inside; the identifier before the block takes
precedence over one after it, and either over an `id` in the block, while classes from all three
places add up. Whatever is left is the content, without one leading `=`.
-/

namespace Offside

namespace Tag

/-- A tag read from a line, with what was passed over. -/
structure Reading where
  tag : Tag
  issues : List Issue
  deriving DecidableEq, Repr

/-- The name at the start of a line, and the rest of the line. -/
def splitName : Text → Text × Text
  | '%' :: rest =>
    let name := rest.takeWhile isNameChar
    (if name = [] then defaultName else name, rest.dropWhile isNameChar)
  | text => (defaultName, text)

/-- The text around the attribute block; all of the text stands before it if there is none. -/
def aroundBlock (text : Text) : Block → Text × Text
  | .closed before _ after => (before, after)
  | _ => (text, [])

/-- What the selectors of a line give, and what is left of the text around the block. -/
structure Selectors where
  id : Option Text
  classes : List Text
  left : Text
  deriving DecidableEq, Repr

/-- Takes the identifier and the classes out of the text on the two sides of the block. The
second side is searched for an identifier only if the first has none. -/
def selectors (before after : Text) : Selectors :=
  let idBefore := Selector.takeFirst '#' before
  let idAfter := if idBefore.1.isSome then (none, after) else Selector.takeFirst '#' after
  let classesBefore := Selector.takeAll '.' idBefore.2
  let classesAfter := Selector.takeAll '.' idAfter.2
  { id := idBefore.1.or idAfter.1
    classes := classesBefore.1 ++ classesAfter.1
    left := classesBefore.2 ++ classesAfter.2 }

/-- The attributes of a block. -/
def blockAttributes : Block → Attributes
  | .closed _ inner _ => .ofBlock inner
  | _ => {}

/-- The pieces of a block that are no entries. -/
def blockRejected : Block → List Text
  | .closed _ inner _ => Attributes.rejected inner
  | _ => []

/-- The content in what is left of a line: trimmed, without one leading `=`; none if empty. -/
def contentOf (left : Text) : Option Text :=
  let content :=
    match Text.trim left with
    | '=' :: rest => Text.trim rest
    | text => text
  if content = [] then none else some content

/-- Reads a tag line. -/
def read (table : VoidTable) (line : Text) : Reading :=
  let named := splitName (Text.trim line)
  let block := Block.find named.2
  let around := aroundBlock named.2 block
  let selected := selectors around.1 around.2
  let attributes := blockAttributes block
  let content := contentOf selected.left
  let isVoid := table.contains named.1
  { tag :=
      { name := named.1
        id := selected.id.or (attributes.get? "id".toList)
        classes :=
          selected.classes ++ ((attributes.get? "class".toList).map Text.words).getD []
        attributes := (attributes.erase "id".toList).erase "class".toList
        content := if isVoid then none else content
        isVoid }
    issues :=
      (if block = .unclosed then [.unclosedBlock] else []) ++
        (blockRejected block).map .bareEntry ++
          (if isVoid then content.toList.map .contentOnVoid else []) }

end Tag

end Offside
