import Offside.Json.Token

/-!
# Reading JSON

The second step of reading JSON puts tokens together. It goes through them once, from left to
right, and keeps the arrays and objects that are open on a stack, so that neither the length nor
the depth of a value is limited here. A state says what may come next; a token that may not come
next ends the reading without a value.
-/

namespace Offside

namespace Json

namespace Reader

/-- Where a value goes when it is complete: what its array or object holds so far, in reverse
order. -/
inductive Context where
  /-- The next item of an array. -/
  | item (items : List Json)
  /-- The value of a key of an object. -/
  | member (members : List (Option Text × Json)) (key : Option Text)
  deriving Repr

/-- What may come next, with the contexts that are open, innermost first. -/
inductive State where
  /-- A value. -/
  | value (stack : List Context)
  /-- A value, or the end of an array that is still empty. -/
  | itemOrEnd (stack : List Context)
  /-- A comma or the end of an array. -/
  | afterItem (items : List Json) (stack : List Context)
  /-- A key, or the end of an object that is still empty. -/
  | keyOrEnd (stack : List Context)
  /-- A key, after a comma. -/
  | key (members : List (Option Text × Json)) (stack : List Context)
  /-- The colon after a key. -/
  | colon (members : List (Option Text × Json)) (key : Option Text) (stack : List Context)
  /-- A comma or the end of an object. -/
  | afterMember (members : List (Option Text × Json)) (stack : List Context)
  /-- Nothing: the value is complete. -/
  | done (value : Json)
  deriving Repr

/-- A value is complete: it goes where the innermost context says, or is the result. -/
def deliver (value : Json) : List Context → State
  | [] => .done value
  | .item items :: stack => .afterItem (value :: items) stack
  | .member members key :: stack => .afterMember ((key, value) :: members) stack

/-- A token where a value is wanted. -/
def beginValue (stack : List Context) : Token → Option State
  | .null => some (deliver .null stack)
  | .bool b => some (deliver (.bool b) stack)
  | .number n => some (deliver (.number n) stack)
  | .string t => some (deliver (.string t) stack)
  | .openArray => some (.itemOrEnd stack)
  | .openObject => some (.keyOrEnd stack)
  | _ => none

/-- One token further. -/
def step : State → Token → Option State
  | .value stack, token => beginValue stack token
  | .itemOrEnd stack, .closeArray => some (deliver (.array []) stack)
  | .itemOrEnd stack, token => beginValue (.item [] :: stack) token
  | .afterItem items stack, .comma => some (.value (.item items :: stack))
  | .afterItem items stack, .closeArray => some (deliver (.array items.reverse) stack)
  | .keyOrEnd stack, .closeObject => some (deliver (.object []) stack)
  | .keyOrEnd stack, .string key => some (.colon [] key stack)
  | .key members stack, .string key => some (.colon members key stack)
  | .colon members key stack, .colon => some (.value (.member members key :: stack))
  | .afterMember members stack, .comma => some (.key members stack)
  | .afterMember members stack, .closeObject => some (deliver (.object members.reverse) stack)
  | _, _ => none

/-- The state after some tokens. -/
def run (state : State) : List Token → Option State
  | [] => some state
  | token :: rest =>
    match step state token with
    | some next => run next rest
    | none => none

end Reader

/-- The value that a list of tokens spells. -/
def ofTokens? (tokens : List Token) : Option Json :=
  match Reader.run (.value []) tokens with
  | some (.done value) => some value
  | _ => none

/-- The value that a text spells. -/
def parse? (t : Text) : Option Json :=
  (Token.all t).bind ofTokens?

end Json

end Offside
