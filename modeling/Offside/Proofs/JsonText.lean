import Offside.Json.Reader
import Offside.Json.Writer
import Offside.Proofs.Text

/-!
# Written JSON is read back

A value is written and read in two steps, and each step of reading undoes its step of writing. The
tokens of a value (`Json.tokens`) stand between the two.

* **Cutting.** What is written for a value, followed by any text that cannot continue a number, is
  cut into the tokens of the value and then those of the text (`Token.all_write`).
* **Putting together.** The tokens of a value, read where a value may come, complete that value,
  whatever is open around it and whatever follows (`Reader.run_tokens`).

So every value whose numbers are numerals is read back as it was (`parse?_write`). That includes the
string without a text, whose literal has half of a surrogate pair.
-/

namespace Offside

namespace Json

/-- Induction over a value, with what is assumed of the items and members of a container in one
hypothesis each. -/
theorem induct {p : Json → Prop} (null : p .null) (bool : ∀ b, p (.bool b))
    (number : ∀ n, p (.number n)) (string : ∀ t, p (.string t))
    (array : ∀ items : List Json, (∀ item ∈ items, p item) → p (.array items))
    (object : ∀ members : List (Option Text × Json),
      (∀ member ∈ members, p member.2) → p (.object members)) (v : Json) : p v := by
  refine @Json.rec p (fun items => ∀ item ∈ items, p item)
    (fun members => ∀ member ∈ members, p member.2) (fun member => p member.2)
    null bool number string array object ?_ ?_ ?_ ?_ ?_ v
  · exact fun item hitem => absurd hitem List.not_mem_nil
  · exact fun _ _ hhead htail => List.forall_mem_cons.mpr ⟨hhead, htail⟩
  · exact fun member hmember => absurd hmember List.not_mem_nil
  · exact fun _ _ hhead htail => List.forall_mem_cons.mpr ⟨hhead, htail⟩
  · exact fun _ _ hvalue => hvalue

mutual

/-- The tokens of a value. -/
def tokens : Json → List Token
  | .null => [.null]
  | .bool b => [.bool b]
  | .number n => [.number n]
  | .string t => [.string t]
  | .array items => .openArray :: tokensItems items
  | .object members => .openObject :: tokensMembers members

/-- The tokens of the items of an array and its closing bracket. -/
def tokensItems : List Json → List Token
  | [] => [.closeArray]
  | [item] => tokens item ++ [.closeArray]
  | item :: rest => tokens item ++ .comma :: tokensItems rest

/-- The tokens of the members of an object and its closing brace. -/
def tokensMembers : List (Option Text × Json) → List Token
  | [] => [.closeObject]
  | [(key, value)] => .string key :: .colon :: tokens value ++ [.closeObject]
  | (key, value) :: rest => .string key :: .colon :: tokens value ++ .comma :: tokensMembers rest

end

theorem tokensItems_cons_cons (item next : Json) (rest : List Json) :
    tokensItems (item :: next :: rest) = tokens item ++ .comma :: tokensItems (next :: rest) := by
  rw [tokensItems]
  exact List.cons_ne_nil _ _

theorem tokensMembers_cons_cons (key : Option Text) (value : Json) (next : Option Text × Json)
    (rest : List (Option Text × Json)) :
    tokensMembers ((key, value) :: next :: rest) =
      .string key :: .colon :: (tokens value ++ .comma :: tokensMembers (next :: rest)) := by
  rw [tokensMembers]
  · rfl
  · exact List.cons_ne_nil _ _

/-- A numeral of the format: digits that do not begin with a zero unless it stands alone, and digits
after the point and in the exponent. -/
structure Number.IsNumeral (n : Number) : Prop where
  whole_ne_nil : n.whole ≠ []
  whole_digits : ∀ c ∈ n.whole, c.isDigit = true
  whole_zero : n.whole.head? = some '0' → n.whole = ['0']
  fraction_digits : ∀ c ∈ n.fraction, c.isDigit = true
  exponent_digits : ∀ e ∈ n.exponent, e.2 ≠ [] ∧ ∀ c ∈ e.2, c.isDigit = true

/-- A token that can be written: its number, if it is one, is a numeral. -/
def Token.IsLegible : Token → Prop
  | .number n => n.IsNumeral
  | _ => True

/-- All numbers of a value are numerals. -/
def IsLegible (v : Json) : Prop :=
  ∀ token ∈ v.tokens, token.IsLegible

theorem isLegible_array {items : List Json} :
    (Json.array items).IsLegible ↔ ∀ item ∈ items, item.IsLegible := by
  have hitems : (∀ token ∈ tokensItems items, token.IsLegible) ↔
      ∀ item ∈ items, item.IsLegible := by
    induction items with
    | nil => simp [tokensItems, Token.IsLegible]
    | cons item items ih =>
      cases items with
      | nil =>
        rw [tokensItems, List.forall_mem_append, List.forall_mem_singleton,
          List.forall_mem_singleton]
        exact and_iff_left trivial
      | cons next items =>
        rw [tokensItems_cons_cons, List.forall_mem_append, List.forall_mem_cons, ih,
          List.forall_mem_cons (a := item)]
        exact and_congr_right fun _ => and_iff_right trivial
  exact (List.forall_mem_cons.trans (and_iff_right trivial)).trans hitems

theorem isLegible_object {members : List (Option Text × Json)} :
    (Json.object members).IsLegible ↔ ∀ member ∈ members, member.2.IsLegible := by
  have hmembers : (∀ token ∈ tokensMembers members, token.IsLegible) ↔
      ∀ member ∈ members, member.2.IsLegible := by
    induction members with
    | nil => simp [tokensMembers, Token.IsLegible]
    | cons member members ih =>
      obtain ⟨key, value⟩ := member
      cases members with
      | nil =>
        rw [tokensMembers, List.forall_mem_append, List.forall_mem_cons, List.forall_mem_cons,
          List.forall_mem_singleton, List.forall_mem_singleton]
        exact (and_iff_left trivial).trans ((and_iff_right trivial).trans (and_iff_right trivial))
      | cons next members =>
        rw [tokensMembers_cons_cons, List.forall_mem_cons, List.forall_mem_cons,
          List.forall_mem_append, List.forall_mem_cons, ih,
          List.forall_mem_cons (a := (key, value))]
        exact (and_iff_right trivial).trans ((and_iff_right trivial).trans
          (and_congr_right fun _ => and_iff_right trivial))
  exact (List.forall_mem_cons.trans (and_iff_right trivial)).trans hmembers

/-- A natural number is written as a numeral. -/
theorem Number.isNumeral_ofNat (n : Nat) : (Number.ofNat n).IsNumeral where
  whole_ne_nil := Nat.toDigits_ne_nil
  whole_digits := fun _ hc => Nat.isDigit_of_mem_toDigits (by decide) (by decide) hc
  whole_zero := by
    show (Nat.toDigits 10 n).head? = some '0' → Nat.toDigits 10 n = ['0']
    -- The first digit of a number is that of its tenth, down to the numbers of one digit.
    induction n using Nat.strongRecOn with
    | ind n ih =>
      by_cases hn : n < 10
      · rw [Nat.toDigits_of_lt_base hn]
        intro hzero
        rw [Option.some.inj hzero]
      · rw [Nat.toDigits_of_base_le (by decide) (Nat.le_of_not_lt hn)]
        intro hzero
        rw [List.head?_append_of_ne_nil _ Nat.toDigits_ne_nil] at hzero
        have htenth := ih (n / 10) (by omega) hzero
        have hvalue : Nat.ofDigitChars 10 (Nat.toDigits 10 (n / 10)) 0 = n / 10 :=
          Nat.ofDigitChars_toDigits (by decide) (by decide)
        rw [htenth] at hvalue
        have : (0 : Nat) = n / 10 := hvalue
        omega
  fraction_digits := fun _ hc => absurd hc List.not_mem_nil
  exponent_digits := fun _ he => absurd he (Option.not_mem_none _)

theorem Number.word?_ofNat {n : Nat} (h : n < Text.wordLimit) :
    (Number.ofNat n).word? = some n := by
  have hvalue : Nat.ofDigitChars 10 (Number.ofNat n).whole 0 = n :=
    Nat.ofDigitChars_toDigits (by decide) (by decide)
  unfold Number.word?
  rw [hvalue, if_pos ⟨rfl, rfl, rfl, h⟩]

namespace Token

/-! ### String literals -/

/-- The item as which a character is written. -/
def Item.ofChar (c : Char) : Item :=
  if c.toNat < 0x20 ∧ c ∉ ['\x08', '\x0c', '\n', '\r', '\t'] then .unit c.toNat else .char c

theorem unit?_control : ∀ code < 0x20,
    unit? '0' '0' (Nat.digitChar (code / 16)) (Nat.digitChar (code % 16)) = some code := by
  decide

/-- What is written for a character is read as its item. -/
theorem items_writeChar (read : List Item) (c : Char) (rest : Text) :
    items read (writeChar c ++ rest) = items (.ofChar c :: read) rest := by
  unfold writeChar
  split
  · rfl
  · rfl
  · rfl
  · rfl
  · rfl
  · rfl
  · rfl
  · rename_i hquote hslash hb hf hn hr ht
    by_cases hcontrol : c.toNat < 0x20
    · have hitem : Item.ofChar c = .unit c.toNat := by
        rw [Item.ofChar, if_pos ⟨hcontrol, by simp_all⟩]
      rw [if_pos hcontrol, hitem]
      simp only [List.cons_append, List.nil_append, items, unit?_control _ hcontrol]
    · have hitem : Item.ofChar c = .char c := by
        rw [Item.ofChar, if_neg fun h => hcontrol h.1]
      rw [if_neg hcontrol, hitem, List.singleton_append]
      rw [items, if_neg (not_or.mpr ⟨hslash, hcontrol⟩)]
      · exact hquote
      · exact fun _ _ _ _ _ h => absurd h hslash
      · exact fun _ _ h => absurd h hslash

theorem items_flatMap_writeChar (read : List Item) (t rest : Text) :
    items read (t.flatMap writeChar ++ '"' :: rest) =
      some (read.reverse ++ t.map Item.ofChar, rest) := by
  induction t generalizing read with
  | nil => simp [items]
  | cons c t ih =>
    rw [List.flatMap_cons, List.append_assoc, items_writeChar, ih, List.reverse_cons,
      List.append_assoc, List.map_cons, List.singleton_append]

/-- The item of a character stands for it: a control character is no half of a surrogate pair. -/
theorem joinItem_ofChar (c : Char) (t : Text) :
    joinItem (.ofChar c) (some (none, t)) = some (none, c :: t) := by
  by_cases hunit : c.toNat < 0x20 ∧ c ∉ ['\x08', '\x0c', '\n', '\r', '\t']
  · have hlow : isLow c.toNat = false := by
      simp only [isLow, Bool.and_eq_false_iff, decide_eq_false_iff_not]
      omega
    have hhigh : isHigh c.toNat = false := by
      simp only [isHigh, Bool.and_eq_false_iff, decide_eq_false_iff_not]
      omega
    rw [Item.ofChar, if_pos hunit]
    simp [joinItem, hlow, hhigh]
  · rw [Item.ofChar, if_neg hunit]
    rfl

theorem text?_map_ofChar (t : Text) : text? (t.map Item.ofChar) = some t := by
  have hjoin : (t.map Item.ofChar).foldr joinItem (some (none, [])) = some (none, t) := by
    induction t with
    | nil => rfl
    | cons c t ih => rw [List.map_cons, List.foldr_cons, ih, joinItem_ofChar]
  rw [text?, hjoin]

/-! ### Numbers -/

/-- The text does not begin with a character that could continue a number. -/
def Detached (rest : Text) : Prop :=
  ∀ c ∈ rest.head?, c.isDigit = false ∧ c ≠ '.' ∧ c ≠ 'e' ∧ c ≠ 'E'

theorem detached_nil : Detached [] :=
  fun _ hc => absurd hc (Option.not_mem_none _)

theorem detached_cons {c : Char} (hdigit : c.isDigit = false)
    (hmarks : c ≠ '.' ∧ c ≠ 'e' ∧ c ≠ 'E') (rest : Text) : Detached (c :: rest) :=
  Text.forall_head?_cons ⟨hdigit, hmarks⟩ rest

/-- The fraction of a number as it is written. -/
def writeFraction (digits : Text) : Text :=
  if digits = [] then [] else '.' :: digits

/-- The exponent of a number as it is written. -/
def writeExponent : Option (Bool × Text) → Text
  | none => []
  | some e => 'e' :: (if e.1 then ['-'] else []) ++ e.2

theorem writeNumber_eq (n : Number) :
    writeNumber n = (if n.negative then ['-'] else []) ++
      (n.whole ++ (writeFraction n.fraction ++ writeExponent n.exponent)) := by
  unfold writeNumber
  cases n.exponent <;> simp [writeFraction, writeExponent]

theorem exponentSign_write (negative : Bool) {digits : Text} (hne : digits ≠ [])
    (hdigits : ∀ c ∈ digits, c.isDigit = true) (rest : Text) :
    exponentSign ((if negative then ['-'] else []) ++ (digits ++ rest)) =
      (negative, digits ++ rest) := by
  cases negative with
  | true => rfl
  | false =>
    obtain ⟨d, ds, rfl⟩ := List.exists_cons_of_ne_nil hne
    have hd : d.isDigit = true := hdigits d List.mem_cons_self
    show exponentSign (d :: (ds ++ rest)) = _
    -- A sign is no digit.
    unfold exponentSign
    split
    · rename_i heq
      obtain ⟨rfl, -⟩ := List.cons.inj heq
      cases hd
    · rename_i heq
      obtain ⟨rfl, -⟩ := List.cons.inj heq
      cases hd
    · rfl

theorem exponent_write {e : Option (Bool × Text)} {rest : Text}
    (he : ∀ d ∈ e, d.2 ≠ [] ∧ ∀ c ∈ d.2, c.isDigit = true) (hrest : Detached rest) :
    exponent (writeExponent e ++ rest) = some (e, rest) := by
  cases e with
  | none =>
    show exponent rest = _
    unfold exponent
    split
    · exact absurd rfl (hrest 'e' rfl).2.2.1
    · exact absurd rfl (hrest 'E' rfl).2.2.2
    · rfl
  | some e =>
    obtain ⟨negative, digits⟩ := e
    obtain ⟨hne, hdigits⟩ := he _ rfl
    have hstop : ∀ c ∈ rest.head?, c.isDigit = false := fun c hc => (hrest c hc).1
    show exponentDigits ((if negative then ['-'] else []) ++ digits ++ rest) = _
    unfold exponentDigits
    rw [List.append_assoc, exponentSign_write negative hne hdigits]
    simp only
    rw [Text.takeWhile_run hdigits hstop, Text.dropWhile_run hdigits hstop, if_neg hne]

theorem head?_writeExponent (e : Option (Bool × Text)) {rest : Text} (hrest : Detached rest) :
    ∀ c ∈ (writeExponent e ++ rest).head?, c.isDigit = false ∧ c ≠ '.' := by
  cases e with
  | none => exact fun c hc => ⟨(hrest c hc).1, (hrest c hc).2.1⟩
  | some e => exact Text.forall_head?_cons (by decide) _

theorem fraction_write {digits rest : Text} (hdigits : ∀ c ∈ digits, c.isDigit = true)
    (hrest : ∀ c ∈ rest.head?, c.isDigit = false ∧ c ≠ '.') :
    fraction (writeFraction digits ++ rest) = some (digits, rest) := by
  by_cases hnil : digits = []
  · subst hnil
    show fraction rest = _
    unfold fraction
    split
    · exact absurd rfl (hrest '.' rfl).2
    · rfl
  · have hstop : ∀ c ∈ rest.head?, c.isDigit = false := fun c hc => (hrest c hc).1
    rw [writeFraction, if_neg hnil, List.cons_append, fraction,
      Text.takeWhile_run hdigits hstop, Text.dropWhile_run hdigits hstop, if_neg hnil]

theorem head?_writeFraction (digits : Text) {rest : Text}
    (hrest : ∀ c ∈ rest.head?, c.isDigit = false ∧ c ≠ '.') :
    ∀ c ∈ (writeFraction digits ++ rest).head?, c.isDigit = false := by
  by_cases hnil : digits = []
  · subst hnil
    exact fun c hc => (hrest c hc).1
  · rw [writeFraction, if_neg hnil]
    exact Text.forall_head?_cons (by decide) _

theorem magnitude_write {n : Number} (hn : n.IsNumeral) {rest : Text} (hrest : Detached rest) :
    magnitude n.negative
      (n.whole ++ (writeFraction n.fraction ++ (writeExponent n.exponent ++ rest))) =
        some (n, rest) := by
  have hexponent := head?_writeExponent n.exponent hrest
  have hstop := head?_writeFraction n.fraction hexponent
  have hwhole : ¬ (n.whole = [] ∨ (n.whole.head? = some '0' ∧ n.whole ≠ ['0'])) := by
    rintro (hnil | ⟨hzero, hlong⟩)
    · exact hn.whole_ne_nil hnil
    · exact hlong (hn.whole_zero hzero)
  unfold magnitude
  rw [Text.takeWhile_run hn.whole_digits hstop, Text.dropWhile_run hn.whole_digits hstop]
  simp only
  rw [if_neg hwhole, fraction_write hn.fraction_digits hexponent]
  simp only
  rw [exponent_write hn.exponent_digits hrest]

/-! ### Cutting into tokens -/

theorem all_of_first {c : Char} {rest after : Text} {token : Token} (hspace : isSpace c = false)
    (h : first c rest = some (token, after)) : all (c :: rest) = (all after).map (token :: ·) := by
  rw [all, hspace, if_neg Bool.false_ne_true]
  split
  · rename_i hnone
    rw [h] at hnone
    cases hnone
  · rename_i hsome
    rw [h] at hsome
    cases hsome
    cases all after <;> rfl

theorem afterWord?_append (word : String) (rest : Text) :
    afterWord? word (word.toList ++ rest) = some rest := by
  rw [afterWord?, if_pos (List.isPrefixOf_iff_prefix.mpr (List.prefix_append _ _)),
    ← String.length_toList, List.drop_left]

/-- A digit begins a number without a sign. -/
theorem first_digit {c : Char} (hc : c.isDigit = true) (rest : Text) :
    first c rest = (magnitude false (c :: rest)).map fun p => (.number p.1, p.2) := by
  unfold first
  split
  all_goals first
    | rfl
    | cases hc

theorem isSpace_digit {c : Char} (hc : c.isDigit = true) : isSpace c = false := by
  have hne : ∀ d : Char, d.isDigit = false → decide (c = d) = false := by
    intro d hd
    refine decide_eq_false ?_
    rintro rfl
    rw [hc] at hd
    cases hd
  rw [isSpace, hne _ rfl, hne _ rfl, hne _ rfl, hne _ rfl]
  rfl

theorem all_writeNumber {n : Number} (hn : n.IsNumeral) {rest : Text} (hrest : Detached rest) :
    all (writeNumber n ++ rest) = (all rest).map (.number n :: ·) := by
  have hmagnitude := magnitude_write hn hrest
  rw [writeNumber_eq, List.append_assoc, List.append_assoc, List.append_assoc]
  cases hsign : n.negative with
  | true =>
    rw [hsign] at hmagnitude
    refine all_of_first rfl ?_
    exact congrArg (Option.map fun p => (Token.number p.1, p.2)) hmagnitude
  | false =>
    rw [hsign] at hmagnitude
    obtain ⟨d, ds, hwhole⟩ := List.exists_cons_of_ne_nil hn.whole_ne_nil
    have hd : d.isDigit = true := hn.whole_digits d (hwhole ▸ List.mem_cons_self)
    rw [hwhole] at hmagnitude ⊢
    refine all_of_first (isSpace_digit hd) ?_
    rw [first_digit hd]
    exact congrArg (Option.map fun p => (Token.number p.1, p.2)) hmagnitude

theorem all_writeString (t : Option Text) (rest : Text) :
    all (writeString t ++ rest) = (all rest).map (.string t :: ·) := by
  cases t with
  | none => exact all_of_first rfl rfl
  | some t =>
    refine all_of_first rfl ?_
    show (items [] (t.flatMap writeChar ++ ['"'] ++ rest)).map _ = _
    rw [List.append_assoc, List.singleton_append, items_flatMap_writeChar, List.reverse_nil,
      List.nil_append]
    exact congrArg (fun read => some (Token.string read, rest)) (text?_map_ofChar t)

/-- What is written for the value is cut into its tokens, whatever follows that cannot continue a
number. -/
def IsCut (v : Json) : Prop :=
  ∀ rest, Detached rest → all (v.write ++ rest) = (all rest).map (v.tokens ++ ·)

theorem all_writeItems {items : List Json} (h : ∀ item ∈ items, IsCut item) (rest : Text) :
    all (writeItems items ++ rest) = (all rest).map (tokensItems items ++ ·) := by
  induction items with
  | nil => exact all_of_first rfl rfl
  | cons item items ih =>
    obtain ⟨hitem, hitems⟩ := List.forall_mem_cons.mp h
    cases items with
    | nil =>
      have hclose : all (']' :: rest) = (all rest).map (.closeArray :: ·) := all_of_first rfl rfl
      rw [writeItems, List.append_assoc, List.singleton_append,
        hitem _ (detached_cons rfl (by decide) rest), hclose, Option.map_map, tokensItems]
      simp [Function.comp_def]
    | cons next items =>
      have hcomma : all (',' :: (writeItems (next :: items) ++ rest)) =
          (all (writeItems (next :: items) ++ rest)).map (.comma :: ·) := all_of_first rfl rfl
      rw [writeItems, List.append_assoc, List.cons_append,
        hitem _ (detached_cons rfl (by decide) _), hcomma, ih hitems, Option.map_map,
        Option.map_map, tokensItems_cons_cons]
      · simp only [Function.comp_def, List.append_assoc, List.cons_append]
      · exact List.cons_ne_nil _ _

theorem all_writeMembers {members : List (Option Text × Json)}
    (h : ∀ member ∈ members, IsCut member.2) (rest : Text) :
    all (writeMembers members ++ rest) = (all rest).map (tokensMembers members ++ ·) := by
  induction members with
  | nil => exact all_of_first rfl rfl
  | cons member members ih =>
    obtain ⟨key, value⟩ := member
    obtain ⟨hvalue, hmembers⟩ := List.forall_mem_cons.mp h
    have hcolon : ∀ t, all (':' :: t) = (all t).map (.colon :: ·) := fun _ => all_of_first rfl rfl
    cases members with
    | nil =>
      have hclose : all ('}' :: rest) = (all rest).map (.closeObject :: ·) := all_of_first rfl rfl
      rw [writeMembers, List.append_assoc, List.append_assoc, List.cons_append,
        List.singleton_append, all_writeString, hcolon,
        hvalue _ (detached_cons rfl (by decide) rest), hclose, tokensMembers]
      simp [Function.comp_def, Option.map_map]
    | cons next members =>
      have hcomma : all (',' :: (writeMembers (next :: members) ++ rest)) =
          (all (writeMembers (next :: members) ++ rest)).map (.comma :: ·) := all_of_first rfl rfl
      rw [writeMembers, List.append_assoc, List.append_assoc, List.cons_append, List.cons_append,
        all_writeString, hcolon, hvalue _ (detached_cons rfl (by decide) _), hcomma,
        ih hmembers, tokensMembers_cons_cons]
      · simp only [Function.comp_def, Option.map_map, List.append_assoc, List.cons_append]
      · exact List.cons_ne_nil _ _

/-- **Written values are cut into their tokens.** -/
theorem isCut (v : Json) (hv : v.IsLegible) : IsCut v := by
  induction v using Json.induct with
  | null =>
    exact fun rest _ => all_of_first rfl (congrArg (Option.map _) (afterWord?_append "ull" rest))
  | bool b =>
    intro rest _
    cases b with
    | true => exact all_of_first rfl (congrArg (Option.map _) (afterWord?_append "rue" rest))
    | false => exact all_of_first rfl (congrArg (Option.map _) (afterWord?_append "alse" rest))
  | number n => exact fun rest hrest => all_writeNumber (hv _ List.mem_cons_self) hrest
  | string t => exact fun rest _ => all_writeString t rest
  | array items ih =>
    intro rest _
    have hitems : ∀ item ∈ items, IsCut item :=
      fun item hitem => ih item hitem (isLegible_array.mp hv item hitem)
    have hopen : all ('[' :: (writeItems items ++ rest)) =
        (all (writeItems items ++ rest)).map (.openArray :: ·) := all_of_first rfl rfl
    rw [write, List.cons_append, hopen, all_writeItems hitems, Option.map_map, tokens]
    rfl
  | object members ih =>
    intro rest _
    have hmembers : ∀ member ∈ members, IsCut member.2 :=
      fun member hmember => ih member hmember (isLegible_object.mp hv member hmember)
    have hopen : all ('{' :: (writeMembers members ++ rest)) =
        (all (writeMembers members ++ rest)).map (.openObject :: ·) := all_of_first rfl rfl
    rw [write, List.cons_append, hopen, all_writeMembers hmembers, Option.map_map, tokens]
    rfl

end Token

/-! ### Putting tokens together -/

namespace Reader

/-- The tokens of the value complete it wherever a value may come. -/
def IsRead (v : Json) : Prop :=
  ∀ stack rest, run (.value stack) (v.tokens ++ rest) = run (deliver v stack) rest

theorem run_cons {state : State} {token : Token} (next : State) (h : step state token = some next)
    (rest : List Token) : run state (token :: rest) = run next rest := by
  rw [run, h]

/-- No value begins with the end of an array, so the first item is read like any other. -/
theorem run_itemOrEnd (v : Json) (stack : List Context) (rest : List Token) :
    run (.itemOrEnd stack) (v.tokens ++ rest) =
      run (.value (.item [] :: stack)) (v.tokens ++ rest) := by
  cases v <;> rfl

theorem run_tokensItems {items : List Json} (h : ∀ item ∈ items, IsRead item) (hne : items ≠ [])
    (before : List Json) (stack : List Context) (rest : List Token) :
    run (.value (.item before :: stack)) (tokensItems items ++ rest) =
      run (deliver (.array (before.reverse ++ items)) stack) rest := by
  induction items generalizing before with
  | nil => exact absurd rfl hne
  | cons item items ih =>
    obtain ⟨hitem, hitems⟩ := List.forall_mem_cons.mp h
    cases items with
    | nil =>
      rw [tokensItems, List.append_assoc, hitem, List.singleton_append, deliver,
        run_cons (deliver (.array (item :: before).reverse) stack) rfl, List.reverse_cons]
    | cons next items =>
      rw [tokensItems_cons_cons, List.append_assoc, hitem, List.cons_append, deliver,
        run_cons (.value (.item (item :: before) :: stack)) rfl,
        ih hitems (List.cons_ne_nil _ _), List.reverse_cons, List.append_assoc,
        List.singleton_append]

theorem run_tokensMembers {members : List (Option Text × Json)}
    (h : ∀ member ∈ members, IsRead member.2) (hne : members ≠ [])
    (before : List (Option Text × Json)) (stack : List Context) (rest : List Token) :
    run (.key before stack) (tokensMembers members ++ rest) =
      run (deliver (.object (before.reverse ++ members)) stack) rest := by
  induction members generalizing before with
  | nil => exact absurd rfl hne
  | cons member members ih =>
    obtain ⟨key, value⟩ := member
    obtain ⟨hvalue, hmembers⟩ := List.forall_mem_cons.mp h
    -- Key and colon lead to where the value may come, with the key put down in the context.
    have hkey : ∀ after,
        run (.key before stack) (.string key :: .colon :: (value.tokens ++ after)) =
          run (.afterMember ((key, value) :: before) stack) after := by
      intro after
      rw [run_cons (.colon before key stack) rfl,
        run_cons (.value (.member before key :: stack)) rfl, hvalue, deliver]
    cases members with
    | nil =>
      rw [tokensMembers, List.append_assoc]
      refine (hkey _).trans ?_
      rw [List.singleton_append,
        run_cons (deliver (.object ((key, value) :: before).reverse) stack) rfl, List.reverse_cons]
    | cons next members =>
      rw [tokensMembers_cons_cons, List.cons_append, List.cons_append, List.append_assoc, hkey,
        List.cons_append, run_cons (.key ((key, value) :: before) stack) rfl,
        ih hmembers (List.cons_ne_nil _ _), List.reverse_cons, List.append_assoc,
        List.singleton_append]

/-- Before its first key an object may also end; any key is taken as after a comma. -/
theorem run_keyOrEnd {members : List (Option Text × Json)} (hne : members ≠ [])
    (stack : List Context) (rest : List Token) :
    run (.keyOrEnd stack) (tokensMembers members ++ rest) =
      run (.key [] stack) (tokensMembers members ++ rest) := by
  obtain ⟨member, members, rfl⟩ := List.exists_cons_of_ne_nil hne
  cases members <;> rfl

/-- **The tokens of a value complete it.** -/
theorem isRead (v : Json) : IsRead v := by
  induction v using Json.induct with
  | null => exact fun _ _ => rfl
  | bool b => exact fun _ _ => rfl
  | number n => exact fun _ _ => rfl
  | string t => exact fun _ _ => rfl
  | array items ih =>
    intro stack rest
    rw [tokens, List.cons_append, run_cons (.itemOrEnd stack) rfl]
    cases items with
    | nil => rfl
    | cons item items =>
      -- The first token of the items is that of the first item.
      have hfirst : run (.itemOrEnd stack) (tokensItems (item :: items) ++ rest) =
          run (.value (.item [] :: stack)) (tokensItems (item :: items) ++ rest) := by
        cases items with
        | nil => rw [tokensItems, List.append_assoc, run_itemOrEnd]
        | cons next items => rw [tokensItems_cons_cons, List.append_assoc, run_itemOrEnd]
      rw [hfirst, run_tokensItems ih (List.cons_ne_nil _ _)]
      rfl
  | object members ih =>
    intro stack rest
    rw [tokens, List.cons_append, run_cons (.keyOrEnd stack) rfl]
    cases members with
    | nil => rfl
    | cons member members =>
      rw [run_keyOrEnd (List.cons_ne_nil _ _), run_tokensMembers ih (List.cons_ne_nil _ _)]
      rfl

end Reader

/-- **A written value is read back,** if its numbers are numerals. -/
theorem parse?_write {v : Json} (hv : v.IsLegible) : parse? v.write = some v := by
  have htokens : Token.all v.write = some v.tokens := by
    have hcut := Token.isCut v hv [] Token.detached_nil
    rw [List.append_nil, Token.all, Option.map_some, List.append_nil] at hcut
    exact hcut
  have hread : Reader.run (.value []) v.tokens = some (.done v) := by
    have hrun := Reader.isRead v [] []
    rw [List.append_nil] at hrun
    exact hrun
  rw [parse?, htokens, Option.bind_some, ofTokens?, hread]

end Json

end Offside
