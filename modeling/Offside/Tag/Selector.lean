import Offside.Text.Basic

/-!
# Selectors

An identifier is marked by `#` and a class by `.`, wherever in the line they stand. Each mark
counts only when it is directly followed by an identifier character, and then takes the longest
run of them. `takeFirst` takes out the first marked identifier of a text, `takeAll` every one;
what they leave behind is the rest of the text in order.
-/

namespace Offside

namespace Selector

/-- The characters of an identifier: ASCII letters, digits, hyphens and underscores. -/
def isIdentChar (c : Char) : Bool :=
  c.isAlphanum || c = '-' || c = '_'

/-- The longest identifier that a text starts with; it may be empty. -/
def ident (t : Text) : Text :=
  t.takeWhile isIdentChar

/-- What follows the longest identifier that a text starts with. -/
def afterIdent (t : Text) : Text :=
  t.dropWhile isIdentChar

theorem length_afterIdent_le (t : Text) : (afterIdent t).length ≤ t.length :=
  (List.dropWhile_sublist isIdentChar).length_le

/-- Takes out the first marked identifier: the identifier, and the text without it. -/
def takeFirst (mark : Char) : Text → Option Text × Text
  | [] => (none, [])
  | c :: rest =>
    if c = mark ∧ ident rest ≠ [] then
      (some (ident rest), afterIdent rest)
    else
      let later := takeFirst mark rest
      (later.1, c :: later.2)

/-- Takes out every marked identifier: the identifiers in order, and the text without them. -/
def takeAll (mark : Char) (t : Text) : List Text × Text :=
  match t with
  | [] => ([], [])
  | c :: rest =>
    if c = mark ∧ ident rest ≠ [] then
      let later := takeAll mark (afterIdent rest)
      (ident rest :: later.1, later.2)
    else
      let later := takeAll mark rest
      (later.1, c :: later.2)
termination_by t.length
decreasing_by
  · exact Nat.lt_succ_of_le (length_afterIdent_le rest)
  · exact Nat.lt_succ_self rest.length

end Selector

end Offside
