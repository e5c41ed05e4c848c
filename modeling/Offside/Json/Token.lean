import Offside.Json.Basic

/-!
# JSON tokens

The first step of reading JSON cuts a text into brackets, separators, words, numbers and string
literals, skipping the four JSON blanks. A string literal is read in two steps: its characters
and escapes up to the closing quote, and then its text, in which an escaped high surrogate and an
escaped low surrogate directly after it make one character.
-/

namespace Offside

namespace Json

/-- A token. -/
inductive Token where
  | openObject
  | closeObject
  | openArray
  | closeArray
  | colon
  | comma
  | null
  | bool (value : Bool)
  | number (value : Number)
  | string (text : Option Text)
  deriving DecidableEq, Repr

namespace Token

/-- The blanks between tokens. -/
def isSpace (c : Char) : Bool :=
  c = ' ' || c = '\t' || c = '\n' || c = '\r'

/-! ### String literals -/

/-- One item of a string literal: a character, or the code unit of a numeric escape. -/
inductive Item where
  | char (c : Char)
  | unit (code : Nat)
  deriving DecidableEq, Repr

/-- The character that a one-letter escape stands for. -/
def escaped? : Char → Option Char
  | '"' => some '"'
  | '\\' => some '\\'
  | '/' => some '/'
  | 'b' => some '\x08'
  | 'f' => some '\x0c'
  | 'n' => some '\n'
  | 'r' => some '\r'
  | 't' => some '\t'
  | _ => none

/-- The value of a hexadecimal digit. -/
def hexDigit? (c : Char) : Option Nat :=
  if '0' ≤ c ∧ c ≤ '9' then some (c.toNat - '0'.toNat)
  else if 'a' ≤ c ∧ c ≤ 'f' then some (c.toNat - 'a'.toNat + 10)
  else if 'A' ≤ c ∧ c ≤ 'F' then some (c.toNat - 'A'.toNat + 10)
  else none

/-- The code unit of four hexadecimal digits. -/
def unit? (a b c d : Char) : Option Nat := do
  let a ← hexDigit? a
  let b ← hexDigit? b
  let c ← hexDigit? c
  let d ← hexDigit? d
  return ((a * 16 + b) * 16 + c) * 16 + d

/-- The items of a string literal up to its closing quote, after those in `read`, which are in
reverse order; and the text after the quote. Control characters must be escaped. -/
def items (read : List Item) : Text → Option (List Item × Text)
  | [] => none
  | '"' :: rest => some (read.reverse, rest)
  | '\\' :: 'u' :: a :: b :: c :: d :: rest =>
    match unit? a b c d with
    | some code => items (.unit code :: read) rest
    | none => none
  | '\\' :: e :: rest =>
    match escaped? e with
    | some c => items (.char c :: read) rest
    | none => none
  | c :: rest =>
    if c = '\\' ∨ c.toNat < 0x20 then none else items (.char c :: read) rest

/-- The first half of a surrogate pair. -/
def isHigh (code : Nat) : Bool :=
  0xD800 ≤ code && code ≤ 0xDBFF

/-- The second half of a surrogate pair. -/
def isLow (code : Nat) : Bool :=
  0xDC00 ≤ code && code ≤ 0xDFFF

/-- The character of a surrogate pair. -/
def pairChar (high low : Nat) : Char :=
  Char.ofNat (0x10000 + (high - 0xD800) * 0x400 + (low - 0xDC00))

/-- One step of `text?`, from the right. The state is the second half of a pair that waits for
its first half, with the text after it. -/
def joinItem (item : Item) (state : Option (Option Nat × Text)) : Option (Option Nat × Text) :=
  match state, item with
  | none, _ => none
  | some (none, t), .char c => some (none, c :: t)
  | some (none, t), .unit code =>
    if isLow code then some (some code, t)
    else if isHigh code then none
    else some (none, Char.ofNat code :: t)
  | some (some low, t), .unit code =>
    if isHigh code then some (none, pairChar code low :: t) else none
  | some (some _, _), .char _ => none

/-- The text of the items of a string literal, if its surrogates come in pairs. -/
def text? (literal : List Item) : Option Text :=
  match literal.foldr joinItem (some (none, [])) with
  | some (none, t) => some t
  | _ => none

/-! ### Numbers -/

/-- The digits after a point, if there is one. -/
def fraction : Text → Option (Text × Text)
  | '.' :: rest =>
    let digits := rest.takeWhile Char.isDigit
    if digits = [] then none else some (digits, rest.dropWhile Char.isDigit)
  | rest => some ([], rest)

/-- The sign in front of an exponent's digits. -/
def exponentSign : Text → Bool × Text
  | '-' :: rest => (true, rest)
  | '+' :: rest => (false, rest)
  | rest => (false, rest)

/-- The exponent after its letter. -/
def exponentDigits (t : Text) : Option (Option (Bool × Text) × Text) :=
  let (negative, rest) := exponentSign t
  let digits := rest.takeWhile Char.isDigit
  if digits = [] then none else some (some (negative, digits), rest.dropWhile Char.isDigit)

/-- The exponent, if there is one. -/
def exponent : Text → Option (Option (Bool × Text) × Text)
  | 'e' :: rest => exponentDigits rest
  | 'E' :: rest => exponentDigits rest
  | rest => some (none, rest)

/-- A number without its sign; a leading zero stands alone. -/
def magnitude (negative : Bool) (t : Text) : Option (Number × Text) :=
  let whole := t.takeWhile Char.isDigit
  if whole = [] ∨ (whole.head? = some '0' ∧ whole ≠ ['0']) then none
  else
    match fraction (t.dropWhile Char.isDigit) with
    | none => none
    | some (fraction, rest) =>
      match exponent rest with
      | none => none
      | some (exponent, rest) => some ({ negative, whole, fraction, exponent }, rest)

/-! ### Tokens -/

/-- What follows a word that a text starts with. -/
def afterWord? (word : String) (t : Text) : Option Text :=
  if word.toList.isPrefixOf t then some (t.drop word.length) else none

/-- The token that a text starts with, given its first character and the rest, and what follows
the token. -/
def first (c : Char) (rest : Text) : Option (Token × Text) :=
  match c with
  | '{' => some (.openObject, rest)
  | '}' => some (.closeObject, rest)
  | '[' => some (.openArray, rest)
  | ']' => some (.closeArray, rest)
  | ':' => some (.colon, rest)
  | ',' => some (.comma, rest)
  | '"' => (items [] rest).map fun (literal, after) => (.string (text? literal), after)
  | '-' => (magnitude true rest).map fun (n, after) => (.number n, after)
  | 'n' => (afterWord? "ull" rest).map fun after => (.null, after)
  | 't' => (afterWord? "rue" rest).map fun after => (.bool true, after)
  | 'f' => (afterWord? "alse" rest).map fun after => (.bool false, after)
  | _ => (magnitude false (c :: rest)).map fun (n, after) => (.number n, after)

/-! ### A token takes at least one character -/

theorem length_items {read : List Item} {t : Text} {literal : List Item} {after : Text}
    (h : items read t = some (literal, after)) : after.length ≤ t.length := by
  fun_induction items read t with
  | case1 => cases h
  | case2 read rest =>
    -- The closing quote.
    obtain ⟨-, rfl⟩ := Prod.mk.inj (Option.some.inj h)
    exact Nat.le_succ _
  | case3 read a b c d rest code hcode ih =>
    -- A numeric escape takes six characters.
    have hrest : after.length ≤ rest.length := ih h
    simp only [List.length_cons]
    omega
  | case4 => cases h
  | case5 read e rest hunit c hescaped ih =>
    -- Any other escape takes two.
    have hrest : after.length ≤ rest.length := ih h
    simp only [List.length_cons]
    omega
  | case6 => cases h
  | case7 => cases h
  | case8 read c rest hquote hunit hescape hplain ih =>
    exact Nat.le_succ_of_le (ih h)

theorem length_dropWhile_le (p : Char → Bool) (t : Text) : (t.dropWhile p).length ≤ t.length :=
  (List.dropWhile_sublist p).length_le

theorem length_fraction {t digits after : Text} (h : fraction t = some (digits, after)) :
    after.length ≤ t.length := by
  unfold fraction at h
  split at h
  · rename_i rest
    have := length_dropWhile_le Char.isDigit rest
    grind
  · grind

theorem length_exponentDigits {t after : Text} {e : Option (Bool × Text)}
    (h : exponentDigits t = some (e, after)) : after.length ≤ t.length := by
  have hs : (exponentSign t).2.length ≤ t.length := by
    unfold exponentSign
    split <;> simp
  have hd := length_dropWhile_le Char.isDigit (exponentSign t).2
  unfold exponentDigits at h
  grind

theorem length_exponent {t after : Text} {e : Option (Bool × Text)}
    (h : exponent t = some (e, after)) : after.length ≤ t.length := by
  unfold exponent at h
  split at h
  case h_1 | h_2 => exact Nat.le_succ_of_le (length_exponentDigits h)
  case h_3 =>
    obtain ⟨-, rfl⟩ := Prod.mk.inj (Option.some.inj h)
    exact Nat.le_refl _

theorem length_magnitude {negative : Bool} {t after : Text} {n : Number}
    (h : magnitude negative t = some (n, after)) : after.length < t.length := by
  unfold magnitude at h
  dsimp only at h
  split at h
  · simp at h
  · rename_i hw
    split at h
    · simp at h
    · rename_i fr rest hf
      split at h
      · simp at h
      · rename_i e rest' he
        have h1 := length_fraction hf
        have h2 := length_exponent he
        have h3 := congrArg List.length
          (List.takeWhile_append_dropWhile (p := Char.isDigit) (l := t))
        have h4 : 0 < (t.takeWhile Char.isDigit).length := by
          rw [List.length_pos_iff]
          exact fun hn => hw (Or.inl hn)
        simp only [List.length_append] at h3
        grind

theorem length_afterWord? {word : String} {t after : Text} (h : afterWord? word t = some after) :
    after.length ≤ t.length := by
  unfold afterWord? at h
  split at h
  · obtain rfl := Option.some.inj h
    exact (List.drop_sublist word.length t).length_le
  · cases h

theorem length_first {c : Char} {rest : Text} {token : Token} {after : Text}
    (h : first c rest = some (token, after)) : after.length ≤ rest.length := by
  -- The brackets and separators are one character. The others leave what their reader leaves.
  have hone : ∀ {mark : Token}, some (mark, rest) = some (token, after) →
      after.length ≤ rest.length := by
    intro mark hmark
    obtain ⟨-, rfl⟩ := Prod.mk.inj (Option.some.inj hmark)
    exact Nat.le_refl _
  have hword : ∀ {word : String} {value : Token},
      (afterWord? word rest).map (fun after => (value, after)) = some (token, after) →
        after.length ≤ rest.length := by
    intro word value hvalue
    obtain ⟨left, hleft, heq⟩ := Option.map_eq_some_iff.mp hvalue
    obtain ⟨-, rfl⟩ := Prod.mk.inj heq
    exact length_afterWord? hleft
  unfold first at h
  split at h
  case h_1 | h_2 | h_3 | h_4 | h_5 | h_6 => exact hone h
  case h_7 =>
    obtain ⟨⟨literal, left⟩, hleft, heq⟩ := Option.map_eq_some_iff.mp h
    obtain ⟨-, rfl⟩ := Prod.mk.inj heq
    exact length_items hleft
  case h_8 =>
    obtain ⟨⟨n, left⟩, hleft, heq⟩ := Option.map_eq_some_iff.mp h
    obtain ⟨-, rfl⟩ := Prod.mk.inj heq
    exact Nat.le_of_lt (length_magnitude hleft)
  case h_9 | h_10 | h_11 => exact hword h
  case h_12 =>
    -- Here the first character is the first digit.
    obtain ⟨⟨n, left⟩, hleft, heq⟩ := Option.map_eq_some_iff.mp h
    obtain ⟨-, rfl⟩ := Prod.mk.inj heq
    exact Nat.lt_succ_iff.mp (length_magnitude hleft)

/-- The tokens of a text. -/
def all (t : Text) : Option (List Token) :=
  match t with
  | [] => some []
  | c :: rest =>
    if isSpace c then all rest
    else
      match _h : first c rest with
      | none => none
      | some (token, after) =>
        match all after with
        | none => none
        | some tokens => some (token :: tokens)
termination_by t.length
decreasing_by
  · exact Nat.lt_succ_self _
  · exact Nat.lt_succ_of_le (length_first (by assumption))

end Token

end Json

end Offside
