/-!
# Texts

Every rule of this library reads a text from left to right, one character at a time, so a text
is the list of its characters and the laws of lists are the laws of texts. Strings appear only
where a text enters or leaves the program.

The module also fixes the two notions of a line: `Text.lines` cuts at every line feed and
nothing else, and `Text.unifyNewlines` turns the two-character line end into the
one-character one beforehand.
-/

namespace Offside

/-- A text, as the list of its characters. -/
abbrev Text := List Char

namespace Text

/-! ### Lines -/

/-- The pieces between line feeds; a text with `n` line feeds has `n + 1` lines. -/
def lines (t : Text) : List Text :=
  List.splitOn '\n' t

/-- Lines put together again, a line feed between each two. -/
def unlines (ls : List Text) : Text :=
  ['\n'].intercalate ls

/-- One step of `unifyNewlines`, from the right: the flag says whether the next character of the
text is a line feed. -/
def unifyStep (c : Char) (state : Bool × Text) : Bool × Text :=
  if c = '\r' ∧ state.1 = true then (false, state.2) else (c = '\n', c :: state.2)

/-- Drops every carriage return that stands directly before a line feed. -/
def unifyNewlines (t : Text) : Text :=
  (t.foldr unifyStep (false, [])).2

/-- **Cutting into lines loses nothing.** -/
@[simp] theorem unlines_lines (t : Text) : unlines (lines t) = t :=
  List.intercalate_splitOn '\n'

/-! ### Cutting -/

/-- The text before the first `sep` and the text after it, if `sep` occurs. -/
def cutAt (sep : Char) (t : Text) : Option (Text × Text) :=
  match t.dropWhile (· != sep) with
  | [] => none
  | _ :: after => some (t.takeWhile (· != sep), after)

/-- The two parts of a cut are the text, less the separator at which it was cut. -/
theorem eq_of_cutAt {sep : Char} {t before after : Text}
    (h : cutAt sep t = some (before, after)) : t = before ++ sep :: after := by
  have hsplit : t.takeWhile (· != sep) ++ t.dropWhile (· != sep) = t :=
    List.takeWhile_append_dropWhile
  unfold cutAt at h
  split at h
  · cases h
  · rename_i c rest hdrop
    obtain ⟨rfl, rfl⟩ := Prod.mk.inj (Option.some.inj h)
    have hhead := List.head?_dropWhile_not (· != sep) t
    rw [hdrop] at hhead
    have hc : c = sep := by simpa using hhead
    rw [hdrop, hc] at hsplit
    exact hsplit.symm

/-- A text without the longest part at its end whose characters all satisfy `p`. -/
def dropTail (p : Char → Bool) (t : Text) : Text :=
  (t.reverse.dropWhile p).reverse

/-- The longest part at the end of a text whose characters all satisfy `p`. -/
def takeTail (p : Char → Bool) (t : Text) : Text :=
  (t.reverse.takeWhile p).reverse

/-- The two ends fit together. -/
theorem dropTail_append_takeTail (p : Char → Bool) (t : Text) :
    dropTail p t ++ takeTail p t = t := by
  rw [dropTail, takeTail, ← List.reverse_append, List.takeWhile_append_dropWhile,
    List.reverse_reverse]

/-- Whether a text has another as a part. -/
def occursIn (part : Text) : Text → Bool
  | [] => part.isEmpty
  | c :: rest => part.isPrefixOf (c :: rest) || occursIn part rest

theorem occursIn_iff {part t : Text} : occursIn part t = true ↔ part <:+: t := by
  induction t with
  | nil => rw [occursIn, List.isEmpty_iff, List.infix_nil]
  | cons c rest ih =>
    rw [occursIn, Bool.or_eq_true, List.isPrefixOf_iff_prefix, ih, List.infix_cons_iff]

/-! ### Decimal numerals -/

/-- The decimal digits of a number, without leading zeros. -/
def decimal (n : Nat) : Text :=
  Nat.toDigits 10 n

/-- The numbers below this one fit a word of 64 bits. -/
def wordLimit : Nat :=
  Nat.pow 2 64

/-- The number that a non-empty run of decimal digits names. -/
def decimal? (t : Text) : Option Nat :=
  if t ≠ [] ∧ t.all Char.isDigit = true then some (Nat.ofDigitChars 10 t 0) else none

/-! ### Order and case -/

/-- Two texts are equal up to the case of the letters `A` to `Z`. -/
def sameIgnoringCase (a b : Text) : Bool :=
  a.map Char.toLower == b.map Char.toLower

/-- The order of texts by their characters' code points, which is also the order of their bytes
in UTF-8. -/
def precedes (a b : Text) : Bool :=
  !List.lex b a

/-- The number of bytes of a text in UTF-8. -/
def byteLength (t : Text) : Nat :=
  t.foldl (fun n c => n + c.utf8Size) 0

end Text

end Offside
