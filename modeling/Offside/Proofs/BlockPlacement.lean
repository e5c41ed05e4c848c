import Offside.Proofs.SourceLines
import Offside.Proofs.TagForm

/-!
# The block before the selectors or after them

Identifiers and classes may stand on either side of the attribute block, and so the block may stand
before all of them or after. In the one layout the selectors are mined from the text before the
block; in the other from the text after it, together with the content of the line. The two come to
the same (`Tag.read_block_first`).

The reason is that a selector pass can be cut in two wherever the second part does not continue an
identifier of the first (`Selector.takeFirst_append`, `Selector.takeAll_append`). Nothing else about
the two parts matters. So the text before the block can be moved over to the text after it
(`Tag.selectors_append`), and this covers the identifiers that come too late and stay as text, and
whatever marks the content has of its own. The block is the same in both layouts because no selector
has a brace in it, and because what follows a region has no part in where it closes
(`Block.close_append`).
-/

namespace Offside

/-! ### A selector pass in two parts -/

namespace Selector

variable {mark : Char} {a b token : Text}

theorem ident_append_of_stop (hb : ∀ c ∈ b.head?, isIdentChar c = false) :
    ident (a ++ b) = ident a :=
  Text.takeWhile_append_of_stop hb a

theorem afterIdent_append_of_stop (hb : ∀ c ∈ b.head?, isIdentChar c = false) :
    afterIdent (a ++ b) = afterIdent a ++ b := by
  have hsplit : ident (a ++ b) ++ afterIdent (a ++ b) = a ++ b :=
    List.takeWhile_append_dropWhile
  have hfirst : ident a ++ afterIdent a = a := List.takeWhile_append_dropWhile
  -- Both sides stand after the same identifier in the same text.
  have hsame : ident a ++ afterIdent (a ++ b) = ident a ++ (afterIdent a ++ b) := by
    rw [← ident_append_of_stop hb, hsplit, ident_append_of_stop hb, ← List.append_assoc, hfirst]
  exact List.append_cancel_left hsame

/-- A pass that takes nothing leaves everything. -/
theorem takeFirst_of_none (h : (takeFirst mark a).1 = none) : takeFirst mark a = (none, a) := by
  induction a with
  | nil => rfl
  | cons c a ih =>
    rw [takeFirst] at h ⊢
    split
    · rename_i hmark
      rw [if_pos hmark] at h
      cases h
    · rename_i hmark
      rw [if_neg hmark] at h
      rw [ih h]

/-- **The first selector of two parts** is that of the first part, or else that of the second. -/
theorem takeFirst_append (hb : ∀ c ∈ b.head?, isIdentChar c = false) :
    takeFirst mark (a ++ b) =
      match (takeFirst mark a).1 with
      | some token => (some token, (takeFirst mark a).2 ++ b)
      | none => ((takeFirst mark b).1, a ++ (takeFirst mark b).2) := by
  induction a with
  | nil => rfl
  | cons c a ih =>
    rw [List.cons_append, takeFirst, takeFirst, ident_append_of_stop hb]
    by_cases hmark : c = mark ∧ ident a ≠ []
    · rw [if_pos hmark, if_pos hmark, afterIdent_append_of_stop hb]
    · rw [if_neg hmark, if_neg hmark, ih]
      dsimp only
      split <;> rfl

/-- **The selectors of two parts** are those of the first and then those of the second. -/
theorem takeAll_append (hb : ∀ c ∈ b.head?, isIdentChar c = false) :
    takeAll mark (a ++ b) =
      ((takeAll mark a).1 ++ (takeAll mark b).1, (takeAll mark a).2 ++ (takeAll mark b).2) := by
  fun_induction takeAll mark a with
  | case1 => rfl
  | case2 c rest hmark later ih =>
    have hmark' : c = mark ∧ ident (rest ++ b) ≠ [] := by rwa [ident_append_of_stop hb]
    rw [List.cons_append, takeAll, if_pos hmark', ident_append_of_stop hb,
      afterIdent_append_of_stop hb, ih]
    rfl
  | case3 c rest hmark later ih =>
    have hmark' : ¬ (c = mark ∧ ident (rest ++ b) ≠ []) := by rwa [ident_append_of_stop hb]
    rw [List.cons_append, takeAll, if_neg hmark', ih]
    rfl

/-- What a pass leaves continues no identifier, if the text did not. -/
theorem head?_takeFirst (hb : ∀ c ∈ b.head?, isIdentChar c = false) :
    ∀ c ∈ (takeFirst mark b).2.head?, isIdentChar c = false := by
  cases b with
  | nil => exact hb
  | cons d b =>
    rw [takeFirst]
    split
    · -- The identifier was taken to its end.
      intro c hc
      have hstop := List.head?_dropWhile_not isIdentChar b
      rw [show (b.dropWhile isIdentChar).head? = some c from hc] at hstop
      exact hstop
    · exact Text.forall_head?_cons (hb d rfl) _

/-- A selector as it is written: a mark and an identifier. -/
structure Marked where
  mark : Char
  token : Text
  isMark : mark = '#' ∨ mark = '.'
  isIdent : IsIdent token

/-- Selectors written one after the other. -/
def marksOf (selectors : List Marked) : Text :=
  selectors.flatMap fun s => s.mark :: s.token

variable {selectors : List Marked}

/-- Every character of some selectors has a property that the two marks have and the characters
of identifiers. -/
theorem forall_mem_marksOf {p : Char → Prop} (hid : p '#') (hclass : p '.')
    (hident : ∀ c, isIdentChar c = true → p c) : ∀ c ∈ marksOf selectors, p c := by
  intro c hc
  obtain ⟨s, -, hc⟩ := List.mem_flatMap.mp hc
  rcases List.mem_cons.mp hc with rfl | hc
  · rcases s.isMark with hmark | hmark <;> rw [hmark] <;> assumption
  · exact hident c (s.isIdent.2 c hc)

theorem brace_notMem_marksOf : '{' ∉ marksOf selectors := fun hmem =>
  forall_mem_marksOf (p := (· ≠ '{')) (by decide) (by decide)
    (fun _ hident heq => absurd (heq ▸ hident) (by decide)) '{' hmem rfl

theorem isBlank_of_mem_marksOf : ∀ c ∈ marksOf selectors, isBlank c = false :=
  forall_mem_marksOf (by decide) (by decide) fun _ => isBlank_of_isIdentChar

/-- Selectors begin with a mark, if there are any. -/
theorem head?_marksOf_append {p : Char → Prop} (hid : p '#') (hclass : p '.') {rest : Text}
    (hrest : ∀ c ∈ rest.head?, p c) : ∀ c ∈ (marksOf selectors ++ rest).head?, p c := by
  cases selectors with
  | nil => exact hrest
  | cons s selectors =>
    refine Text.forall_head?_cons ?_ _
    rcases s.isMark with hmark | hmark <;> rw [hmark] <;> assumption

end Selector

/-! ### The two layouts -/

namespace Block

/-- **What one character does to a scan,** whatever comes after it: it goes to the inside and the
scan reads on, or it closes the region. -/
theorem close_cons (depth : Nat) (quote : Option Char) (previous c : Char) :
    (∃ d q, ∀ t, close depth quote previous (c :: t) = (close d q c t).map (prepend [c])) ∨
      ∀ t, close depth quote previous (c :: t) = some ([], t) := by
  cases quote with
  | some q => exact Or.inl ⟨depth, if c = q then none else some q, fun t => rfl⟩
  | none =>
    by_cases hquote : (isQuote c && admitsQuote previous) = true
    · exact Or.inl ⟨depth, some c, fun t => if_pos hquote⟩
    · by_cases hopen : c = '{'
      · exact Or.inl ⟨depth + 1, none, fun t => (if_neg hquote).trans (if_pos hopen)⟩
      · by_cases hclose : c = '}'
        · -- A brace closes the region itself or one that is nested in it.
          cases depth with
          | zero =>
            exact Or.inr fun t => (if_neg hquote).trans ((if_neg hopen).trans (if_pos hclose))
          | succ outer =>
            exact Or.inl ⟨outer, none, fun t =>
              (if_neg hquote).trans ((if_neg hopen).trans (if_pos hclose))⟩
        · exact Or.inl ⟨depth, none, fun t =>
            (if_neg hquote).trans ((if_neg hopen).trans (if_neg hclose))⟩

/-- Text after the brace that closes a region is left over and changes nothing. -/
theorem close_append {depth : Nat} {quote : Option Char} {previous : Char} {t inner after : Text}
    (h : close depth quote previous t = some (inner, after)) (more : Text) :
    close depth quote previous (t ++ more) = some (inner, after ++ more) := by
  induction t generalizing depth quote previous inner with
  | nil => cases h
  | cons c t ih =>
    rcases close_cons depth quote previous c with ⟨d, q, hstep⟩ | hstop
    · rw [hstep] at h
      obtain ⟨parts, hparts, heq⟩ := Option.map_eq_some_iff.mp h
      obtain ⟨rfl, rfl⟩ := Prod.mk.inj heq
      rw [List.cons_append, hstep, ih hparts]
      rfl
    · rw [hstop] at h
      obtain ⟨rfl, rfl⟩ := Prod.mk.inj (Option.some.inj h)
      rw [List.cons_append, hstop]

end Block

namespace Text

theorem trim_append {front : Text} (hfront : Trimmed front) (hne : front ≠ []) (back : Text) :
    trim (front ++ back) = front ++ trimEnd back := by
  have hstart : trimStart (front ++ back) = front ++ back := by
    refine trimStart_eq_self ?_
    rw [List.head?_append_of_ne_nil _ hne]
    exact hfront.head
  rw [trim, hstart, trimEnd_append]
  split
  · rename_i hnil
    rw [hnil, trimEnd_eq_self hfront.last, List.append_nil]
  · rfl

theorem head?_trimEnd {p : Char → Prop} {t : Text} (h : ∀ c ∈ t.head?, p c) :
    ∀ c ∈ (trimEnd t).head?, p c := by
  intro c hc
  obtain ⟨rest, hrest⟩ := isPrefix_trimEnd t
  refine h c ?_
  rw [← hrest, List.head?_append, hc]
  rfl

end Text

namespace Tag

/-- **Selectors may be moved over the block.** -/
theorem selectors_append {before after : Text}
    (hafter : ∀ c ∈ after.head?, Selector.isIdentChar c = false) :
    selectors [] (before ++ after) = selectors before after := by
  have hnone : Selector.takeFirst '#' [] = (none, []) := rfl
  have hempty : Selector.takeAll '.' [] = ([], []) := by rw [Selector.takeAll]
  unfold selectors
  rw [hnone]
  dsimp only
  rw [Option.isSome_none, if_neg Bool.false_ne_true, hempty, Selector.takeFirst_append hafter]
  cases hid : (Selector.takeFirst '#' before).1 with
  | some id =>
    dsimp only
    rw [Option.isSome_some, if_pos rfl, Selector.takeAll_append hafter]
    rfl
  | none =>
    -- Without an identifier before the block, the text there is left for the classes.
    dsimp only
    rw [Option.isSome_none, if_neg Bool.false_ne_true, Selector.takeFirst_of_none hid,
      Selector.takeAll_append (Selector.head?_takeFirst hafter)]
    rfl

/-- Trimming a line shortens its content and nothing else, if something that is not blank stands
between the name and the content; and the name ends where that begins. -/
theorem splitName_trim {name : Text} (middle : Text) (hname : ∀ c ∈ name, isNameChar c = true)
    (hmiddle : middle ≠ []) (hhead : ∀ c ∈ middle.head?, isNameChar c = false)
    (hlast : ∀ c ∈ middle.getLast?, isBlank c = false) (content : Text) :
    splitName (Text.trim ('%' :: (name ++ middle) ++ content)) =
      (if name = [] then defaultName else name, middle ++ Text.trimEnd content) := by
  have htrimmed : Text.Trimmed ('%' :: (name ++ middle)) := by
    refine ⟨Text.forall_head?_cons (by decide) _, ?_⟩
    rw [← List.cons_append, List.getLast?_append_of_ne_nil _ hmiddle]
    exact hlast
  have hstop : ∀ c ∈ (middle ++ Text.trimEnd content).head?, isNameChar c = false := by
    rwa [List.head?_append_of_ne_nil _ hmiddle]
  rw [Text.trim_append htrimmed (List.cons_ne_nil _ _), List.cons_append, List.append_assoc,
    splitName, Text.takeWhile_run hname hstop, Text.dropWhile_run hname hstop]

/-- With the selectors first, a brace is what stands before the content. -/
theorem splitName_block_last {name : Text} (hname : ∀ c ∈ name, isNameChar c = true)
    (selectors : List Selector.Marked) (inner content : Text) :
    splitName (Text.trim ('%' :: name ++ Selector.marksOf selectors ++ '{' :: inner ++
        '}' :: content)) =
      (if name = [] then defaultName else name,
        Selector.marksOf selectors ++ '{' :: (inner ++ '}' :: Text.trimEnd content)) := by
  have hhead : ∀ c ∈ (Selector.marksOf selectors ++ '{' :: inner ++ ['}']).head?,
      isNameChar c = false := by
    rw [List.append_assoc]
    exact Selector.head?_marksOf_append (by decide) (by decide)
      (Text.forall_head?_cons (by decide) _)
  have hlast : ∀ c ∈ (Selector.marksOf selectors ++ '{' :: inner ++ ['}']).getLast?,
      isBlank c = false := by
    rw [List.getLast?_concat]
    rintro c ⟨⟩
    decide
  simpa using splitName_trim _ hname (List.concat_ne_nil _ _) hhead hlast content

/-- With the block first, it is a brace or the end of an identifier. -/
theorem splitName_block_first {name : Text} (hname : ∀ c ∈ name, isNameChar c = true)
    (selectors : List Selector.Marked) (inner content : Text) :
    splitName (Text.trim ('%' :: name ++ '{' :: inner ++ '}' :: Selector.marksOf selectors ++
        content)) =
      (if name = [] then defaultName else name,
        '{' :: (inner ++ '}' :: (Selector.marksOf selectors ++ Text.trimEnd content))) := by
  have hhead : ∀ c ∈ ('{' :: inner ++ '}' :: Selector.marksOf selectors).head?,
      isNameChar c = false := Text.forall_head?_cons (by decide) _
  have hlast : ∀ c ∈ ('{' :: inner ++ '}' :: Selector.marksOf selectors).getLast?,
      isBlank c = false := by
    rw [List.getLast?_append_of_ne_nil _ (List.cons_ne_nil _ _)]
    intro c hc
    rcases List.mem_cons.mp (List.mem_of_getLast? hc) with rfl | hc
    · decide
    · exact Selector.isBlank_of_mem_marksOf c hc
  simpa using splitName_trim _ hname (List.cons_ne_nil _ _) hhead hlast content

/-- Two lines are read alike if they have the same name, the same inside of a block, and selectors
that come to the same. -/
theorem read_congr {table : VoidTable} {line line' name rest rest' inner : Text}
    {before after before' after' : Text}
    (hname : splitName (Text.trim line) = (name, rest))
    (hname' : splitName (Text.trim line') = (name, rest'))
    (hfind : Block.find rest = .closed before inner after)
    (hfind' : Block.find rest' = .closed before' inner after')
    (hselectors : selectors before after = selectors before' after') :
    read table line = read table line' := by
  unfold read
  dsimp only
  rw [hname, hname']
  dsimp only
  rw [hfind, hfind']
  dsimp only [aroundBlock, blockAttributes, blockRejected]
  rw [hselectors]
  rfl

/-- **The block may stand before the selectors or after them.** For every name, also none, any
selectors, an inside at the end of which the block closes and not before, and content that does not
continue an identifier, both lines are read as the same tag with the same remarks. -/
theorem read_block_first (table : VoidTable) (name : Text) (selectors : List Selector.Marked)
    (inner content : Text) (hname : ∀ c ∈ name, isNameChar c = true)
    (hinner : Block.region (inner ++ ['}']) = some (inner, []))
    (hcontent : ∀ c ∈ content.head?, Selector.isIdentChar c = false) :
    read table ('%' :: name ++ Selector.marksOf selectors ++ '{' :: inner ++ '}' :: content) =
      read table ('%' :: name ++ '{' :: inner ++ '}' :: Selector.marksOf selectors ++ content) := by
  have hstop : ∀ c ∈ (Text.trimEnd content).head?, Selector.isIdentChar c = false :=
    Text.head?_trimEnd hcontent
  have hregion : ∀ rest, Block.region (inner ++ '}' :: rest) = some (inner, rest) := by
    intro rest
    have hmore := Block.close_append hinner rest
    rwa [List.append_assoc, List.singleton_append] at hmore
  have hnone : '{' ∉ ([] : Text) := List.not_mem_nil
  exact read_congr (splitName_block_last hname selectors inner content)
    (splitName_block_first hname selectors inner content)
    (Block.find_append Selector.brace_notMem_marksOf (hregion _))
    (Block.find_append hnone (hregion _)) (selectors_append hstop).symm

/-- Two identifiers, the second of which comes too late, with a class between them. -/
def lateMarks : List Selector.Marked :=
  [⟨'#', "a_1".toList, Or.inl rfl, by decide, List.all_eq_true.mp (by decide)⟩,
    ⟨'.', "b".toList, Or.inr rfl, by decide, List.all_eq_true.mp (by decide)⟩,
    ⟨'#', "c".toList, Or.inl rfl, by decide, List.all_eq_true.mp (by decide)⟩]

/-- An inside with a quoted brace and a bare entry, and content with marks and a block of its own. -/
theorem read_block_first_late :
    (∀ c ∈ "h1".toList, isNameChar c = true) ∧
    Block.region ("class: 'x \x7d', y".toList ++ ['}']) = some ("class: 'x \x7d', y".toList, []) ∧
    (∀ c ∈ " #d.e = \x7bz\x7d ".toList.head?, Selector.isIdentChar c = false) ∧
    '%' :: "h1".toList ++ Selector.marksOf lateMarks ++ '{' :: "class: 'x \x7d', y".toList ++
        '}' :: " #d.e = \x7bz\x7d ".toList =
      "%h1#a_1.b#c\x7bclass: 'x \x7d', y\x7d #d.e = \x7bz\x7d ".toList ∧
    read .html ('%' :: "h1".toList ++ Selector.marksOf lateMarks ++
        '{' :: "class: 'x \x7d', y".toList ++ '}' :: " #d.e = \x7bz\x7d ".toList) =
      read .html ('%' :: "h1".toList ++ '{' :: "class: 'x \x7d', y".toList ++
        '}' :: Selector.marksOf lateMarks ++ " #d.e = \x7bz\x7d ".toList) := by
  have hname : ∀ c ∈ "h1".toList, isNameChar c = true := List.all_eq_true.mp (by decide)
  have hinner : Block.region ("class: 'x \x7d', y".toList ++ ['}']) =
      some ("class: 'x \x7d', y".toList, []) := by decide
  have hcontent : ∀ c ∈ " #d.e = \x7bz\x7d ".toList.head?, Selector.isIdentChar c = false := by
    rintro c ⟨⟩
    decide
  exact ⟨hname, hinner, hcontent, by decide,
    read_block_first .html _ lateMarks _ _ hname hinner hcontent⟩

end Tag

end Offside
