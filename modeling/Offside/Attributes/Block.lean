import Offside.Text.Blank

/-!
# The attribute block of a tag line

Attributes stand between braces. The block of a text is its first balanced region: each opening
brace is tried in turn, and the first that is ever closed wins. While a region is read, braces
count towards nesting unless they stand in a quoted run. A quote mark begins a quoted run only
after an opening brace, a comma, a colon or a blank, so that the apostrophe in a bare word is
text; the run ends at the next mark of the same kind.
-/

namespace Offside

/-- What a text holds by way of an attribute block. -/
inductive Block where
  /-- No opening brace at all. -/
  | absent
  /-- Opening braces, none of which is ever closed. -/
  | unclosed
  /-- A balanced region: the text before it, between its braces, and after it. -/
  | closed (before inner after : Text)
  deriving DecidableEq, Repr

namespace Block

/-- The two quote marks. -/
def isQuote (c : Char) : Bool :=
  c = '"' || c = '\x27'

/-- A quote mark begins a quoted run only directly after one of these characters. -/
def admitsQuote (previous : Char) : Bool :=
  previous = '{' || previous = ',' || previous = ':' || isBlank previous

/-- Reads on inside a region, `depth` nested regions deep, after the character `previous` and
within a run of `quote` if there is one. Gives what stands before the brace that closes the
region, and what stands after it. -/
def close (depth : Nat) (quote : Option Char) (previous : Char) : Text → Option (Text × Text)
  | [] => none
  | c :: rest =>
    match quote with
    | some q =>
      (close depth (if c = q then none else some q) c rest).map fun (i, a) => (c :: i, a)
    | none =>
      if isQuote c && admitsQuote previous then
        (close depth (some c) c rest).map fun (i, a) => (c :: i, a)
      else if c = '{' then
        (close (depth + 1) none c rest).map fun (i, a) => (c :: i, a)
      else if c = '}' then
        match depth with
        | 0 => some ([], rest)
        | outer + 1 => (close outer none c rest).map fun (i, a) => (c :: i, a)
      else
        (close depth none c rest).map fun (i, a) => (c :: i, a)

/-- The brace that closes a region stands between the two parts that are given. -/
theorem eq_of_close {depth : Nat} {quote : Option Char} {previous : Char} {t inner after : Text}
    (h : close depth quote previous t = some (inner, after)) : t = inner ++ '}' :: after := by
  induction t generalizing depth quote previous inner with
  | nil => cases h
  | cons c rest ih =>
    -- In every case but the last the character belongs to the inside.
    have step {d : Nat} {q : Option Char}
        (h : (close d q c rest).map (fun (i, a) => (c :: i, a)) = some (inner, after)) :
        c :: rest = inner ++ '}' :: after := by
      obtain ⟨⟨i, a⟩, hi, he⟩ := Option.map_eq_some_iff.mp h
      obtain ⟨rfl, rfl⟩ := Prod.mk.inj he
      rw [ih hi, List.cons_append]
    unfold close at h
    split at h
    · exact step h
    · split at h
      · exact step h
      · split at h
        · exact step h
        · split at h
          · rename_i hc
            split at h
            · obtain ⟨rfl, rfl⟩ := Prod.mk.inj (Option.some.inj h)
              rw [hc, List.nil_append]
            · exact step h
          · exact step h

/-- The text between the brace that has just been read and the one that closes it, and the text
after that. -/
def region (afterBrace : Text) : Option (Text × Text) :=
  close 0 none '{' afterBrace

/-- A block found one character further to the right. -/
def shift (c : Char) : Block → Block
  | .absent => if c = '{' then .unclosed else .absent
  | .unclosed => .unclosed
  | .closed before inner after => .closed (c :: before) inner after

/-- The first balanced region of a text. -/
def find : Text → Block
  | [] => .absent
  | c :: rest =>
    match if c = '{' then region rest else none with
    | some (inner, after) => .closed [] inner after
    | none => shift c (find rest)

/-- **A closed block is cut out of the text.** Nothing is lost but the two braces. -/
theorem eq_of_find {t before inner after : Text} (h : find t = .closed before inner after) :
    t = before ++ '{' :: inner ++ '}' :: after := by
  induction t generalizing before with
  | nil => cases h
  | cons c rest ih =>
    rw [find] at h
    split at h
    · rename_i i a hregion
      obtain ⟨rfl, rfl, rfl⟩ := Block.closed.inj h
      split at hregion
      · rename_i hc
        rw [hc, eq_of_close hregion]
        rfl
      · cases hregion
    · cases hfind : find rest with
      | absent => rw [hfind, shift] at h; split at h <;> cases h
      | unclosed => rw [hfind] at h; cases h
      | closed b i a =>
        rw [hfind] at h
        obtain ⟨rfl, rfl, rfl⟩ := Block.closed.inj h
        rw [ih hfind]
        rfl

end Block

end Offside
