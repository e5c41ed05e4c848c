import Offside.Json.Basic

/-!
# Writing JSON

Values are written without blanks. In a string literal the quote, the backslash and the control
characters are escaped and everything else stands as it is.
-/

namespace Offside

namespace Json

/-- A character as it stands in a string literal. -/
def writeChar (c : Char) : Text :=
  match c with
  | '"' => ['\\', '"']
  | '\\' => ['\\', '\\']
  | '\x08' => ['\\', 'b']
  | '\x0c' => ['\\', 'f']
  | '\n' => ['\\', 'n']
  | '\r' => ['\\', 'r']
  | '\t' => ['\\', 't']
  | c =>
    if c.toNat < 0x20 then
      ['\\', 'u', '0', '0', Nat.digitChar (c.toNat / 16), Nat.digitChar (c.toNat % 16)]
    else [c]

/-- A string literal; one without a text is written as an unpaired surrogate. -/
def writeString : Option Text → Text
  | some t => '"' :: t.flatMap writeChar ++ ['"']
  | none => "\"\\ud800\"".toList

/-- A number, as it was written. -/
def writeNumber (n : Number) : Text :=
  (if n.negative then ['-'] else []) ++ n.whole ++
    (if n.fraction = [] then [] else '.' :: n.fraction) ++
      match n.exponent with
      | none => []
      | some (negative, digits) => 'e' :: (if negative then ['-'] else []) ++ digits

mutual

/-- A value. -/
def write : Json → Text
  | .null => "null".toList
  | .bool true => "true".toList
  | .bool false => "false".toList
  | .number n => writeNumber n
  | .string t => writeString t
  | .array items => '[' :: writeItems items
  | .object members => '{' :: writeMembers members

/-- The items of an array and its closing bracket. -/
def writeItems : List Json → Text
  | [] => [']']
  | [item] => write item ++ [']']
  | item :: rest => write item ++ ',' :: writeItems rest

/-- The members of an object and its closing brace. -/
def writeMembers : List (Option Text × Json) → Text
  | [] => ['}']
  | [(key, value)] => writeString key ++ ':' :: write value ++ ['}']
  | (key, value) :: rest => writeString key ++ ':' :: write value ++ ',' :: writeMembers rest

end

/-- Whether a member comes before another when keys are in order. -/
def memberPrecedes (a b : Option Text × Json) : Bool :=
  Text.precedes (a.1.getD []) (b.1.getD [])

mutual

/-- A value with the members of every object in the order of their keys. -/
def sorted : Json → Json
  | .array items => .array (sortedItems items)
  | .object members => .object ((sortedMembers members).mergeSort memberPrecedes)
  | value => value

/-- Each of some values with its members in order. -/
def sortedItems : List Json → List Json
  | [] => []
  | item :: rest => sorted item :: sortedItems rest

/-- Members, each value with its own members in order. -/
def sortedMembers : List (Option Text × Json) → List (Option Text × Json)
  | [] => []
  | (key, value) :: rest => (key, sorted value) :: sortedMembers rest

end

end Json

end Offside
