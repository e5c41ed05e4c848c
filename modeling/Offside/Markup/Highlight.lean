import Offside.Ansi
import Offside.Text.Blank

/-!
# Highlighting markup

For the terminal, markup is cut into pieces: plain text; and, from each `<` to the next `>`, the
name of the tag, and keys with their quoted values. Names are bold blue, keys cyan and values
green. Every character of the markup is in exactly one piece, in order.

A key starts one byte after the start of the last blank before it. Where that blank takes more
than one byte there is no such place, and the highlighting is refused.
-/

namespace Offside

namespace Highlight

/-- What a piece of markup is. -/
inductive Role where
  | plain
  | name
  | key
  | value
  deriving DecidableEq, Repr

/-- A piece of markup. -/
structure Piece where
  role : Role
  text : Text
  deriving DecidableEq, Repr

/-- A blank of more than one byte stands where a key would have to start. -/
structure WideBlank where
  blank : Char
  deriving DecidableEq, Repr

/-- The text before the first `="`, and the text after it. -/
def cutAssignment : Text → Option (Text × Text)
  | [] => none
  | c :: rest =>
    match c, rest with
    | '=', '"' :: after => some ([], after)
    | c, rest => (cutAssignment rest).map fun (before, after) => (c :: before, after)

theorem length_cutAssignment {t before after : Text}
    (h : cutAssignment t = some (before, after)) : after.length < t.length := by
  fun_induction cutAssignment t generalizing before with
  | case1 => simp at h
  | case2 => grind
  | case3 c rest _ ih =>
    obtain ⟨⟨b, a⟩, hb, he⟩ := Option.map_eq_some_iff.mp h
    simp only [Prod.mk.injEq] at he
    have := ih (he.2 ▸ hb)
    simp only [List.length_cons]
    omega

/-- The quoted value whose opening quote has been read, both quotes included, and what follows
it. A value that is never closed goes to the end. -/
def quoted (afterQuote : Text) : Text × Text :=
  match Text.cutAt '"' afterQuote with
  | some (value, after) => ('"' :: value ++ ['"'], after)
  | none => ('"' :: afterQuote, [])

theorem length_quoted_le (t : Text) : (quoted t).2.length ≤ t.length := by
  unfold quoted Text.cutAt
  have := (List.dropWhile_sublist (l := t) (· != '"')).length_le
  grind

/-- A text cut after its last blank. -/
def splitKey (before : Text) : Except WideBlank (Text × Text) :=
  let lead := Text.dropTail (fun c => !isBlank c) before
  let key := Text.takeTail (fun c => !isBlank c) before
  match lead.getLast? with
  | none => .ok (lead, key)
  | some blank => if blank.utf8Size = 1 then .ok (lead, key) else .error ⟨blank⟩

/-- The pieces of a tag after its name. -/
def attributePieces (t : Text) : Except WideBlank (List Piece) :=
  if t = [] then .ok []
  else
    match _h : cutAssignment t with
    | none => .ok [⟨.name, t⟩]
    | some (before, after) => do
      let (lead, key) ← splitKey before
      let rest ← attributePieces (quoted after).2
      return [⟨.plain, lead⟩, ⟨.key, key⟩, ⟨.plain, ['=']⟩, ⟨.value, (quoted after).1⟩] ++ rest
termination_by t.length
decreasing_by
  exact Nat.lt_of_le_of_lt (length_quoted_le after) (length_cutAssignment (by assumption))

/-- The characters that end the name of a tag. -/
def endsName (c : Char) : Bool :=
  isBlank c || c = '>'

/-- The pieces of a tag whose opening bracket has been read. -/
def tagPieces (afterBracket : Text) : Except WideBlank (List Piece) := do
  let name := '<' :: afterBracket.takeWhile fun c => !endsName c
  let rest ← attributePieces (afterBracket.dropWhile fun c => !endsName c)
  return ⟨.name, name⟩ :: rest

/-- The rest of a tag, up to its closing bracket or the end, and what follows it. -/
def tagText (afterBracket : Text) : Text × Text :=
  match Text.cutAt '>' afterBracket with
  | some (tag, after) => (tag ++ ['>'], after)
  | none => (afterBracket, [])

theorem length_tagText_le (t : Text) : (tagText t).2.length ≤ t.length := by
  unfold tagText Text.cutAt
  have := (List.dropWhile_sublist (l := t) (· != '>')).length_le
  grind

/-- The pieces of markup. -/
def pieces (markup : Text) : Except WideBlank (List Piece) :=
  match _h : Text.cutAt '<' markup with
  | none => .ok [⟨.plain, markup⟩]
  | some (before, after) => do
    let tag ← tagPieces (tagText after).1
    let rest ← pieces (tagText after).2
    return ⟨.plain, before⟩ :: tag ++ rest
termination_by markup.length
decreasing_by
  have h1 := length_tagText_le after
  have h2 : after.length < markup.length := by
    unfold Text.cutAt at _h
    have := (List.dropWhile_sublist (l := markup) (· != '<')).length_le
    grind
  omega

/-- The style of a piece. -/
def Role.style? : Role → Option Ansi.Style
  | .plain => none
  | .name => some { colour := .blue, bold := true }
  | .key => some { colour := .cyan }
  | .value => some { colour := .green }

/-- A piece in its style. -/
def Piece.paint (coloured : Bool) (piece : Piece) : Text :=
  match piece.role.style? with
  | none => piece.text
  | some style => Ansi.paint coloured style piece.text

end Highlight

/-- Markup with its tags, keys and values in colour, where colours are wanted. -/
def highlight (coloured : Bool) (markup : Text) : Except Highlight.WideBlank Text := do
  let pieces ← Highlight.pieces markup
  return pieces.flatMap (Highlight.Piece.paint coloured)

end Offside
