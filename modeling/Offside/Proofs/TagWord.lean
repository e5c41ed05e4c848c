import Offside.Proofs.Layout

/-!
# The tags of an output

A reader of markup who knows nothing of how it was made can still find its tags: at every opening
bracket there may be a slash, and then comes the longest run of name characters. `TagMark.ofText`
reads a text that way. Start tags of void elements stand alone; the rest should be brackets.

They are, in every output of a source without opening brackets (`Renderer.wellNested_output`):
each closing tag has the spelling of the start tag that it closes, and nothing is left open. The
proof follows the text back to the history. The marks of an output are those of its lines, in
order, whatever their indentation, since no mark reaches over the end of a line. The marks of a
line are those of its fragment, since neither the attributes nor the content of a line without
brackets has any. And the history is well-nested already, so its start and closing tags translate
to brackets and its other lines to well-nested words of their own (`WellNested.flatMap`).
-/

namespace Offside

open Outline

/-! ### Reading the tags of a text -/

/-- A tag as a reader of markup sees it: whether it closes, and its name. -/
inductive TagMark where
  | opening (name : Text)
  | closing (name : Text)
  deriving DecidableEq, Repr

namespace TagMark

/-- The tag whose opening bracket has just been read. -/
def afterBracket : Text → TagMark
  | '/' :: rest => .closing (rest.takeWhile Tag.isNameChar)
  | rest => .opening (rest.takeWhile Tag.isNameChar)

/-- The tags of a text, one for each opening bracket. -/
def ofText : Text → List TagMark
  | [] => []
  | c :: rest => if c = '<' then afterBracket rest :: ofText rest else ofText rest

/-- A start tag of a void element. -/
def IsVoid (table : VoidTable) (mark : TagMark) : Prop :=
  ∃ name, table.contains name = true ∧ mark = .opening name

/-- The start tag and the closing tag of an element that is not void, spelled alike. -/
def Encloses (table : VoidTable) (first last : TagMark) : Prop :=
  ∃ name, table.contains name = false ∧ first = .opening name ∧ last = .closing name

/-! ### Marks and cuts -/

theorem ofText_cons_bracket (rest : Text) :
    ofText ('<' :: rest) = afterBracket rest :: ofText rest := by
  rw [ofText, if_pos rfl]

theorem ofText_cons {c : Char} (h : c ≠ '<') (rest : Text) : ofText (c :: rest) = ofText rest := by
  rw [ofText, if_neg h]

/-- Text without brackets has no tags, and hides none. -/
theorem ofText_append_of_free {t : Text} (h : '<' ∉ t) (rest : Text) :
    ofText (t ++ rest) = ofText rest := by
  induction t with
  | nil => rfl
  | cons c t ih =>
    have hc : c ≠ '<' := fun hc => h (hc ▸ List.mem_cons_self)
    rw [List.cons_append, ofText_cons hc]
    exact ih fun hmem => h (List.mem_cons_of_mem _ hmem)

theorem ofText_of_free {t : Text} (h : '<' ∉ t) : ofText t = [] := by
  have hall := ofText_append_of_free h []
  rwa [List.append_nil] at hall

/-- The text begins, if at all, with a character that can belong to no tag before it. -/
def Breaks (t : Text) : Prop :=
  ∀ c ∈ t.head?, c ≠ '/' ∧ Tag.isNameChar c = false

theorem afterBracket_of_ne_slash {t : Text} (h : ∀ c ∈ t.head?, c ≠ '/') :
    afterBracket t = .opening (t.takeWhile Tag.isNameChar) := by
  unfold afterBracket
  split
  · exact absurd rfl (h '/' rfl)
  · rfl

theorem afterBracket_append {b : Text} (h : Breaks b) (a : Text) :
    afterBracket (a ++ b) = afterBracket a := by
  have hstop : ∀ c ∈ b.head?, Tag.isNameChar c = false := fun c hc => (h c hc).2
  cases a with
  | nil =>
    -- The bracket ends the first text, and what follows is neither a slash nor a name.
    have hslash : ∀ c ∈ b.head?, c ≠ '/' := fun c hc => (h c hc).1
    have hname := Text.takeWhile_append_of_stop hstop []
    rw [List.nil_append] at hname ⊢
    rw [afterBracket_of_ne_slash hslash, hname]
    rfl
  | cons c a =>
    by_cases hc : c = '/'
    · subst hc
      exact congrArg TagMark.closing (Text.takeWhile_append_of_stop hstop a)
    · rw [List.cons_append, afterBracket_of_ne_slash (Text.forall_head?_cons hc _),
        afterBracket_of_ne_slash (Text.forall_head?_cons hc _), ← List.cons_append,
        Text.takeWhile_append_of_stop hstop]

/-- The tags of two texts in a row, if the second cannot continue a tag of the first. -/
theorem ofText_append {b : Text} (h : Breaks b) (a : Text) :
    ofText (a ++ b) = ofText a ++ ofText b := by
  induction a with
  | nil => rfl
  | cons c a ih =>
    by_cases hc : c = '<'
    · subst hc
      rw [List.cons_append, ofText_cons_bracket, ofText_cons_bracket, afterBracket_append h, ih,
        List.cons_append]
    · rw [List.cons_append, ofText_cons hc, ofText_cons hc, ih]

/-- No tag reaches over the end of a line. -/
theorem ofText_unlines (lines : List Text) :
    ofText (Text.unlines lines) = lines.flatMap ofText := by
  induction lines with
  | nil => rfl
  | cons line rest ih =>
    cases rest with
    | nil =>
      rw [Text.unlines, List.intercalate_singleton, List.flatMap_cons, List.flatMap_nil,
        List.append_nil]
    | cons next others =>
      -- The line feed breaks off whatever tag the line may end in.
      have hbreaks : Breaks ('\n' :: Text.unlines (next :: others)) :=
        Text.forall_head?_cons (by decide) _
      have hunlines : Text.unlines (line :: next :: others) =
          line ++ '\n' :: Text.unlines (next :: others) := by
        rw [Text.unlines, List.intercalate_cons_cons, List.append_assoc, List.singleton_append,
          Text.unlines]
      rw [hunlines, ofText_append hbreaks, ofText_cons (by decide), ih, ← List.flatMap_cons]

/-- Indentation has no tags. -/
theorem ofText_of_indented {text line : Text} (h : Indented text line) :
    ofText line = ofText text := by
  obtain ⟨width, rfl⟩ := h
  refine ofText_append_of_free ?_ text
  intro hmem
  exact absurd (List.eq_of_mem_replicate hmem) (by decide)

/-! ### The tags of a fragment -/

theorem takeWhile_name {name rest : Text} (h : Tag.IsName name)
    (hrest : ∀ c ∈ rest.head?, Tag.isNameChar c = false) :
    (name ++ rest).takeWhile Tag.isNameChar = name :=
  Text.takeWhile_run h.2 hrest

/-- A start tag is read as one, with its name, if what follows the name does not continue it. -/
theorem ofText_startTag {name rest : Text} (h : Tag.IsName name)
    (hrest : ∀ c ∈ rest.head?, Tag.isNameChar c = false) :
    ofText ('<' :: (name ++ rest)) = .opening name :: ofText rest := by
  have hslash : ∀ c ∈ (name ++ rest).head?, c ≠ '/' := by
    rw [List.head?_append_of_ne_nil _ h.1]
    exact h.head_ne_slash
  rw [ofText_cons_bracket, ofText_append_of_free h.bracket_notMem,
    afterBracket_of_ne_slash hslash, takeWhile_name h hrest]

theorem ofText_closingTag {name : Text} (h : Tag.IsName name) :
    ofText (Fragment.closingTag name) = [.closing name] := by
  have hstop : ∀ c ∈ ['>'].head?, Tag.isNameChar c = false :=
    Text.forall_head?_cons (by decide) _
  change ofText ('<' :: '/' :: (name ++ ['>'])) = _
  rw [ofText_cons_bracket, ofText_cons (by decide),
    ofText_append_of_free h.bracket_notMem, ofText_of_free (by decide)]
  change [TagMark.closing ((name ++ ['>']).takeWhile Tag.isNameChar)] = _
  rw [takeWhile_name h hstop]

variable {line : Text} {tag : Tag}

/-- The start tag of a line without brackets is read as one tag. -/
theorem ofText_head (hfree : '<' ∉ line) (hname : Tag.IsName tag.name) (h : tag.Within line)
    {rest : Text} (hrest : ∀ c ∈ rest.head?, Tag.isNameChar c = false) :
    ofText (tag.head ++ rest) = .opening tag.name :: ofText rest := by
  rw [Tag.head_append, ofText_startTag hname (tag.head?_assignments_append (by decide) hrest),
    ofText_append_of_free (Tag.bracket_notMem_assignments hfree h)]

theorem ofText_head_terminator (hfree : '<' ∉ line) (hname : Tag.IsName tag.name)
    (h : tag.Within line) (style : VoidStyle) :
    ofText (tag.head ++ style.terminator) = [.opening tag.name] := by
  have hstop : ∀ c ∈ style.terminator.head?, Tag.isNameChar c = false := by
    cases style <;> exact Text.forall_head?_cons (by decide) _
  have hterminator : '<' ∉ style.terminator := by
    cases style <;> decide
  rw [ofText_head hfree hname h hstop, ofText_of_free hterminator]

theorem ofText_head_bracket (hfree : '<' ∉ line) (hname : Tag.IsName tag.name)
    (h : tag.Within line) : ofText (tag.head ++ ['>']) = [.opening tag.name] := by
  rw [ofText_head hfree hname h (Text.forall_head?_cons (by decide) _), ofText_of_free (by decide)]

theorem ofText_inline (hfree : '<' ∉ line) (hname : Tag.IsName tag.name) (h : tag.Within line)
    {content : Text} (hcontent : content ⊆ line) :
    ofText (tag.head ++ ['>'] ++ content ++ Fragment.closingTag tag.name) =
      [.opening tag.name, .closing tag.name] := by
  have hbracket : '<' ∉ ['>'] ++ content := by
    intro hmem
    rcases List.mem_append.mp hmem with hmem | hmem
    · exact absurd hmem (by decide)
    · exact hfree (hcontent hmem)
  have hstop : ∀ c ∈ (['>'] ++ content ++ Fragment.closingTag tag.name).head?,
      Tag.isNameChar c = false :=
    Text.forall_head?_cons (by decide) _
  rw [List.append_assoc tag.head, List.append_assoc tag.head, ofText_head hfree hname h hstop,
    ofText_append_of_free hbracket, ofText_closingTag hname]

end TagMark

/-! ### The tags of a document -/

namespace Renderer

variable {r : Renderer} {line : Line}

/-- The markup of an opening line has one tag, its start tag, and that is not void. -/
theorem marks_of_opens (hfree : '<' ∉ line.content) (h : r.opens line = true) :
    TagMark.ofText (r.markup line) = [.opening (r.fragment line).name] ∧
      r.table.contains (r.fragment line).name = false := by
  have hname := isName_fragment (r := r) line
  rcases r.markup_cases line with ⟨hnot, -⟩ | ⟨tag, hwithin, htag, hcases⟩
  · exact absurd h hnot
  · rw [← htag] at hname ⊢
    rcases hcases with ⟨-, hvoid, hmarkup⟩ | ⟨hnot, -, -⟩ | ⟨hnot, -, -⟩
    · rw [hmarkup]
      exact ⟨TagMark.ofText_head_bracket hfree hname hwithin, hvoid⟩
    · exact absurd h hnot
    · exact absurd h hnot

/-- The markup of any other line is a well-nested word: no tag, a void one, or a pair. -/
theorem wellNested_of_not_opens (hfree : '<' ∉ line.content) (h : ¬ r.opens line = true) :
    WellNested (TagMark.IsVoid r.table) (TagMark.Encloses r.table)
      (TagMark.ofText (r.markup line)) := by
  have hname := isName_fragment (r := r) line
  rcases r.markup_cases line with ⟨-, hmarkup⟩ | ⟨tag, hwithin, htag, hcases⟩
  · rw [hmarkup, TagMark.ofText_of_free hfree]
    exact .nil
  · rw [← htag] at hname
    rcases hcases with ⟨hopens, -, -⟩ | ⟨-, hvoid, hmarkup⟩ | ⟨-, hvoid, content, hcontent, hmarkup⟩
    · exact absurd hopens h
    · rw [hmarkup, TagMark.ofText_head_terminator hfree hname hwithin]
      exact .leaf ⟨_, hvoid, rfl⟩ .nil
    · rw [hmarkup, TagMark.ofText_inline hfree hname hwithin hcontent]
      exact .pair ⟨_, hvoid, rfl, rfl⟩ .nil .nil

/-- The tags of the lines of a history, in order, are well-nested. -/
theorem wellNested_marks {lines : List Line} (hfree : ∀ line ∈ lines, '<' ∉ line.content) :
    WellNested (TagMark.IsVoid r.table) (TagMark.Encloses r.table)
      ((r.history lines).flatMap fun e => TagMark.ofText e.line.text) := by
  refine (nested_history (r := r) lines).flatMap ?_ ?_
  · intro e he hleaf
    -- The two tags of a container are no leaves, so the entry is a line that stands alone.
    obtain ⟨line, hline, hwrites⟩ := exists_writes he
    cases hwrites with
    | opens _ _ => exact nomatch hleaf
    | stands hopens _ => exact wellNested_of_not_opens (hfree line hline) hopens
    | closes _ _ => exact nomatch hleaf
  · rintro a ha b - ⟨frame, hmark, -, -, hclosing, -⟩ inner hinner
    obtain ⟨line, hline, hwrites⟩ := exists_writes ha
    cases hwrites with
    | opens hopens _ =>
      -- The closing tag has the name of the container that the line opened.
      obtain rfl : r.frame line = frame := Mark.opens.inj hmark
      obtain ⟨hmarks, hvoid⟩ := marks_of_opens (hfree line hline) hopens
      have hclose : TagMark.ofText b.line.text = [.closing (r.fragment line).name] := by
        rw [hclosing]
        exact TagMark.ofText_closingTag (isName_fragment line)
      dsimp only
      rw [hmarks, hclose]
      exact .pair ⟨_, hvoid, rfl, rfl⟩ hinner .nil
    | stands _ _ => exact nomatch hmark
    | closes _ _ => exact nomatch hmark

theorem flatMap_ofText {entries : List Entry} {placed : List Text}
    (h : List.Forall₂ (fun e p => Indented e.line.text p) entries placed) :
    placed.flatMap TagMark.ofText = entries.flatMap fun e => TagMark.ofText e.line.text := by
  induction h with
  | nil => rfl
  | cons hfirst _ ih =>
    rw [List.flatMap_cons, List.flatMap_cons, ih, TagMark.ofText_of_indented hfirst]

/-- The tags of an output are those of the lines of its history. -/
theorem marks_output {source : Text} {rendered : Rendered} (h : r.render source = .ok rendered) :
    TagMark.ofText rendered.output =
      (r.history (significant source)).flatMap fun e => TagMark.ofText e.line.text := by
  obtain ⟨placed, hout, hindented⟩ := exists_output h
  rw [hout, TagMark.ofText_unlines, flatMap_ofText hindented]

end Renderer

/-- **Outputs are well-nested.** Whatever a source without opening brackets is rendered to, in any
layout and any style, its tags other than the start tags of void elements are brackets: each
closing tag is spelled like the start tag that it closes, nothing is left open, and no void
element is ever closed. -/
theorem Renderer.wellNested_output (r : Renderer) (source : Text) (rendered : Rendered)
    (hfree : '<' ∉ source) (h : r.render source = .ok rendered) :
    WellNested (TagMark.IsVoid r.table) (TagMark.Encloses r.table)
        (TagMark.ofText rendered.output) ∧
      ∀ name, .closing name ∈ TagMark.ofText rendered.output → r.table.contains name = false := by
  have hlines : ∀ line ∈ significant source, '<' ∉ line.content := fun line hline hmem =>
    hfree ((of_mem_significant hline).2 hmem)
  have hnested := wellNested_marks (r := r) hlines
  rw [← marks_output h] at hnested
  refine ⟨hnested, fun name hname => ?_⟩
  -- A closing tag is no leaf and begins no pair, so it ends one.
  rcases hnested.leaf_or_pair _ hname with
    ⟨_, -, hopening⟩ | ⟨_, _, -, hopening, -⟩ | ⟨_, _, hvoid, -, hclosing⟩
  · exact nomatch hopening
  · exact nomatch hopening
  · rwa [TagMark.closing.inj hclosing]

/-- An abrupt dedent, a line at a width never seen before, a void element in another case and a
value that holds a closing bracket. -/
theorem Renderer.wellNested_output_dedent :
    '<' ∉ "%a{b: c>d}\n   %i\n    %BR\n  e\n%p f".toList ∧
    Renderer.render {} "%a{b: c>d}\n   %i\n    %BR\n  e\n%p f".toList = .ok
      ⟨"<a b=\"c>d\">\n  <i>\n    <BR />\n  </i>\n  e\n</a>\n<p>f</p>".toList, []⟩ ∧
    WellNested (TagMark.IsVoid .html) (TagMark.Encloses .html) (TagMark.ofText
      "<a b=\"c>d\">\n  <i>\n    <BR />\n  </i>\n  e\n</a>\n<p>f</p>".toList) := by
  have hfree : '<' ∉ "%a{b: c>d}\n   %i\n    %BR\n  e\n%p f".toList := by decide
  have hrender : Renderer.render {} "%a{b: c>d}\n   %i\n    %BR\n  e\n%p f".toList = .ok
      ⟨"<a b=\"c>d\">\n  <i>\n    <BR />\n  </i>\n  e\n</a>\n<p>f</p>".toList, []⟩ := by
    cbv
  exact ⟨hfree, hrender, (wellNested_output {} _ _ hfree hrender).1⟩

end Offside
