import Offside.Attributes.Basic
import Offside.Text.Blank

/-!
# Attribute entries

The inside of an attribute block is a list of entries `key: value`. Every comma separates two
entries, also one between quotes, and an entry is cut at its first colon. Keys and values lose
the blanks around them and then one pair of matching quotes. A piece without a colon, or without
a key before it, is no entry; such pieces are handed back so that they can be reported, and
empty pieces are passed over in silence.
-/

namespace Offside

namespace Attributes

/-- A text within a pair of the quote mark `q`. -/
def isQuotedBy (q : Char) (t : Text) : Bool :=
  2 ≤ t.length && t.head? == some q && t.getLast? == some q

/-- A text without the pair of matching quote marks around it, if there is one. -/
def unquote (t : Text) : Text :=
  if isQuotedBy '"' t || isQuotedBy '\x27' t then t.tail.dropLast else t

/-- The key and the value of a piece that is an entry. -/
def keyValue? (piece : Text) : Option (Text × Text) :=
  match Text.cutAt ':' piece with
  | none => none
  | some (key, value) =>
    let key := unquote (Text.trim key)
    if key = [] then none else some (key, unquote (Text.trim value))

/-- The pieces between commas, trimmed, without the empty ones. -/
def pieces (inner : Text) : List Text :=
  ((List.splitOn ',' inner).map Text.trim).filter (· ≠ [])

/-- The attributes that the inside of a block sets. -/
def ofBlock (inner : Text) : Attributes :=
  ofList ((pieces inner).filterMap keyValue?)

/-- The pieces of the inside of a block that are no entries. -/
def rejected (inner : Text) : List Text :=
  (pieces inner).filter fun piece => (keyValue? piece).isNone

end Attributes

end Offside
