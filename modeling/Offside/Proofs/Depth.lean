import Offside.Proofs.Layout

/-!
# Layout finds the depth

Layout by depth never sees the outline. It reads each line of markup anew, takes some lines for
start tags and some for closing tags, and counts. For a source without opening brackets whose
containers have names that begin with a letter, it reads every line as it was meant
(`Renderer.shape_of_writes`): its counter is then the number of containers that stand open in
the outline, all along the document (`Layout.placeFrom_of_path`), and each line of the output is
indented by that number (`Renderer.output_at_depth`).

The condition on names is needed, since layout takes a name that begins with a digit or a hyphen
for text. So is the one on brackets, since a plain line may look like a tag.
-/

namespace Offside

open Outline

/-! ### The counter and the outline -/

/-- The shape that layout should find in the line of an entry. -/
def Outline.Mark.shape : Mark → Layout.Shape
  | .opens _ => .opening
  | .stands => .level
  | .closes => .closing

/-- Counting by the right shapes is counting the containers. -/
theorem Outline.Entry.Moves.depth {before after : List Frame} {e : Entry}
    (h : Entry.Moves before e after) :
    e.mark.shape.depthAt before.length = e.around.length ∧
      e.mark.shape.depthAfter before.length = after.length := by
  cases h with
  | opens frames frame html => exact ⟨rfl, rfl⟩
  | stands frames line => exact ⟨rfl, rfl⟩
  | closes frame frames => exact ⟨rfl, rfl⟩

namespace Layout

variable {unit : Nat} {table : VoidTable}

/-- **The counter stays in step.** Where every line is read as it was meant, layout places each at
the number of containers around it. -/
theorem placeFrom_of_path {frames last : List Frame} {entries : List Entry}
    (hpath : Outline.Path frames entries last)
    (hread : ∀ e ∈ entries, Text.Trimmed e.line.text ∧ e.line.text ≠ [] ∧
      shape table e.line.text = e.mark.shape) :
    placeFrom unit table frames.length (entries.map (·.line.text)) =
      entries.mapM fun e => pad (unit * e.around.length) e.line.text := by
  induction hpath with
  | nil frames => rfl
  | @cons before between after e rest hmove _ ih =>
    obtain ⟨htrimmed, hne, hshape⟩ := hread e List.mem_cons_self
    -- The shape moves the counter as the entry moves the containers.
    obtain ⟨hat, hafter⟩ := hmove.depth
    have hne' : Text.trim e.line.text ≠ [] := by rwa [htrimmed.trim_eq]
    rw [List.map_cons, placeFrom_cons hne', htrimmed.trim_eq, hshape, hat, hafter,
      ih fun e' he' => hread e' (List.mem_cons_of_mem _ he'), List.mapM_cons, Nat.mul_comm]

/-! ### What layout reads in a line -/

theorem endsName_of_isNameChar {c : Char} (h : Tag.isNameChar c = true) : endsName c = false := by
  obtain ⟨hlow, hhigh⟩ := Tag.printable_of_isNameChar h
  have hblank : isBlank c = false := isBlank_of_printable hlow hhigh
  have hgreater : c ≠ '>' := by
    rintro rfl
    exact absurd h (by decide)
  have hslash : c ≠ '/' := by
    rintro rfl
    exact absurd h (by decide)
  simp [endsName, hblank, hgreater, hslash]

/-- A start tag is read with its own name, if what follows the name ends it. -/
theorem tagName_append {name rest : Text} (hname : Tag.IsName name)
    (hrest : ∀ c ∈ rest.head?, endsName c = true) : tagName (name ++ rest) = name := by
  have hstop : ∀ c ∈ rest.head?, (!endsName c) = false := fun c hc => by simp [hrest c hc]
  refine Text.takeWhile_run ?_ hstop
  intro c hc
  rw [endsName_of_isNameChar (hname.2 c hc)]
  rfl

/-- What layout makes of a line that begins with a start tag. -/
theorem shape_startTag {name rest : Text} (hname : Tag.IsName name)
    (hrest : ∀ c ∈ rest.head?, endsName c = true) :
    shape table ('<' :: (name ++ rest)) =
      if name.head?.any Char.isAlpha && !endsItself table ('<' :: (name ++ rest)) name then
        .opening
      else .level := by
  have htag := tagName_append hname hrest
  -- The first character of the name keeps the line from being read as a closing tag.
  obtain ⟨c, name, rfl⟩ := List.exists_cons_of_ne_nil hname.1
  have hslash : c ≠ '/' := hname.head_ne_slash c rfl
  rw [List.cons_append] at htag ⊢
  unfold shape
  split
  · rename_i heq
    exact absurd (List.cons.inj (List.cons.inj heq).2).1 hslash
  · rename_i heq
    obtain rfl := (List.cons.inj heq).2
    rw [htag]
  · rename_i hnot
    exact absurd rfl (hnot _)

theorem shape_closingTag (name : Text) : shape table (Fragment.closingTag name) = .closing := rfl

theorem shape_of_head_ne {line : Text} (h : line.head? ≠ some '<') : shape table line = .level := by
  unfold shape
  split
  · exact absurd rfl h
  · exact absurd rfl h
  · rfl

/-! ### What layout reads in a fragment -/

variable {tag : Tag}

/-- What layout makes of a fragment, whatever follows its start tag. -/
theorem shape_head (hname : Tag.IsName tag.name) {rest : Text}
    (hrest : ∀ c ∈ rest.head?, endsName c = true) :
    shape table (tag.head ++ rest) =
      if tag.name.head?.any Char.isAlpha && !endsItself table (tag.head ++ rest) tag.name then
        .opening
      else .level := by
  rw [Tag.head_append]
  exact shape_startTag hname (tag.head?_assignments_append (by decide) hrest)

/-- An element that its line ends by itself leaves the depth as it is. -/
theorem shape_level (hname : Tag.IsName tag.name) {rest : Text}
    (hrest : ∀ c ∈ rest.head?, endsName c = true)
    (hends : endsItself table (tag.head ++ rest) tag.name = true) :
    shape table (tag.head ++ rest) = .level := by
  rw [shape_head hname hrest, hends, Bool.not_true, Bool.and_false]
  rfl

/-- A void element ends by its name, however it is written. -/
theorem shape_void (hname : Tag.IsName tag.name) (hvoid : table.contains tag.name = true)
    (style : VoidStyle) : shape table (tag.head ++ style.terminator) = .level := by
  have hterminator : ∀ c ∈ style.terminator.head?, endsName c = true := by
    cases style <;> exact Text.forall_head?_cons (by decide) _
  refine shape_level hname hterminator ?_
  rw [endsItself, hvoid, Bool.or_true, Bool.true_or]

/-- An element with content ends by its closing tag. -/
theorem shape_inline (hname : Tag.IsName tag.name) (content : Text) :
    shape table (tag.head ++ ['>'] ++ content ++ Fragment.closingTag tag.name) = .level := by
  have hinfix : ['<', '/'] ++ tag.name ++ ['>'] <:+:
      tag.head ++ (['>'] ++ content ++ Fragment.closingTag tag.name) := by
    rw [← List.append_assoc]
    exact (List.suffix_append _ _).isInfix
  rw [List.append_assoc tag.head, List.append_assoc tag.head]
  refine shape_level hname (Text.forall_head?_cons (by decide) _) ?_
  rw [endsItself, Text.occursIn_iff.mpr hinfix, Bool.or_true]

/-- A start tag by itself does not end in a slash. -/
theorem not_suffix_head (hname : Tag.IsName tag.name) :
    ¬ ['/', '>'] <:+ tag.head ++ ['>'] := by
  rintro ⟨before, hbefore⟩
  have hend : before ++ ['/'] ++ ['>'] = tag.head ++ ['>'] := by
    rw [← hbefore, List.append_assoc]
    rfl
  have hlast : tag.head = before ++ ['/'] := (List.append_cancel_right hend).symm
  rw [Tag.head_eq] at hlast
  rcases tag.assignments_cases with hnone | ⟨inside, hsome⟩
  · -- Without attributes the last character is one of the name.
    obtain ⟨front, c, hfront⟩ : ∃ front c, tag.name = front ++ [c] :=
      ⟨_, _, (List.dropLast_concat_getLast hname.1).symm⟩
    rw [hnone, List.append_nil, hfront, ← List.cons_append] at hlast
    obtain rfl : c = '/' := (List.append_singleton_inj.mp hlast).2
    have hc : Tag.isNameChar '/' = true :=
      hname.2 '/' (hfront ▸ List.mem_append_right _ List.mem_cons_self)
    exact absurd hc (by decide)
  · -- With attributes it is the quote that ends the last value.
    rw [hsome, ← List.cons_append, ← List.cons_append, ← List.append_assoc] at hlast
    exact absurd (List.append_singleton_inj.mp hlast).2 (by decide)

/-- A line whose only bracket is its first character holds no closing tag, unless it is one. -/
theorem not_infix_of_free {line rest : Text} (hfree : '<' ∉ line)
    (hslash : ∀ c ∈ line.head?, c ≠ '/') : ¬ '<' :: '/' :: rest <:+: '<' :: line := by
  rintro ⟨before, after, heq⟩
  -- The closing tag would begin at the first bracket or at a second one.
  cases before with
  | nil =>
    obtain rfl := (List.cons.inj heq).2
    exact hslash '/' rfl rfl
  | cons c before =>
    obtain rfl := (List.cons.inj heq).2
    exact hfree (List.mem_append_left _ (List.mem_append_right _ List.mem_cons_self))

/-- A start tag by itself opens an element, if its name begins with a letter and is not void. -/
theorem shape_opening (hname : Tag.IsName tag.name)
    (hletter : tag.name.head?.any Char.isAlpha = true)
    (hvoid : table.contains tag.name = false) (hfree : '<' ∉ tag.assignments) :
    shape table (tag.head ++ ['>']) = .opening := by
  -- None of the three signs of an element that ends within its line is there.
  have hsuffix : ['/', '>'].isSuffixOf (tag.head ++ ['>']) = false := by
    rw [← Bool.not_eq_true, List.isSuffixOf_iff_suffix]
    exact not_suffix_head hname
  have hinfix : Text.occursIn (['<', '/'] ++ tag.name ++ ['>']) (tag.head ++ ['>']) = false := by
    rw [← Bool.not_eq_true, Text.occursIn_iff, Tag.head_append]
    refine not_infix_of_free ?_ ?_
    · simp only [List.mem_append, not_or]
      exact ⟨hname.bracket_notMem, hfree, by decide⟩
    · intro c hc
      rw [List.head?_append_of_ne_nil _ hname.1] at hc
      exact hname.head_ne_slash c hc
  rw [shape_head hname (Text.forall_head?_cons (by decide) _), hletter, endsItself, hsuffix,
    hvoid, hinfix]
  rfl

end Layout

/-! ### Documents -/

namespace Renderer

variable {r : Renderer} {line : Line}

/-- The names of all containers of a source begin with a letter. -/
def LetterNames (r : Renderer) (source : Text) : Prop :=
  ∀ line ∈ significant source, r.opens line = true →
    (r.fragment line).name.head?.any Char.isAlpha = true

theorem shape_of_opens (hfree : '<' ∉ line.content) (h : r.opens line = true)
    (hletter : (r.fragment line).name.head?.any Char.isAlpha = true) :
    Layout.shape r.table (r.markup line) = .opening := by
  have hname := isName_fragment (r := r) line
  rcases r.markup_cases line with ⟨hnot, -⟩ | ⟨tag, hwithin, htag, hcases⟩
  · exact absurd h hnot
  · rw [← htag] at hname hletter
    rcases hcases with ⟨-, hvoid, hmarkup⟩ | ⟨hnot, -, -⟩ | ⟨hnot, -, -⟩
    · rw [hmarkup]
      exact Layout.shape_opening hname hletter hvoid (Tag.bracket_notMem_assignments hfree hwithin)
    · exact absurd h hnot
    · exact absurd h hnot

theorem shape_of_not_opens (hstart : line.content.head? ≠ some '<') (h : ¬ r.opens line = true) :
    Layout.shape r.table (r.markup line) = .level := by
  have hname := isName_fragment (r := r) line
  rcases r.markup_cases line with ⟨-, hmarkup⟩ | ⟨tag, -, htag, hcases⟩
  · rw [hmarkup]
    exact Layout.shape_of_head_ne hstart
  · rw [← htag] at hname
    rcases hcases with ⟨hopens, -, -⟩ | ⟨-, hvoid, hmarkup⟩ | ⟨-, -, content, -, hmarkup⟩
    · exact absurd hopens h
    · rw [hmarkup]
      exact Layout.shape_void hname hvoid _
    · rw [hmarkup]
      exact Layout.shape_inline hname content

/-- **Layout reads every line as it was meant.** -/
theorem shape_of_writes {e : Entry} (hfree : '<' ∉ line.content)
    (hletter : r.opens line = true → (r.fragment line).name.head?.any Char.isAlpha = true)
    (h : r.Writes line e) : Layout.shape r.table e.line.text = e.mark.shape := by
  cases h with
  | opens hopens _ => exact shape_of_opens hfree hopens (hletter hopens)
  | stands hopens _ =>
    exact shape_of_not_opens (fun hstart => hfree (List.mem_of_mem_head? hstart)) hopens
  | closes _ _ => exact Layout.shape_closingTag _

/-- What layout needs to know of the lines of a history to place them. -/
theorem shape_of_mem_history {source : Text} (hfree : '<' ∉ source)
    (hletters : r.LetterNames source) :
    ∀ e ∈ r.history (significant source), Text.Trimmed e.line.text ∧ e.line.text ≠ [] ∧
      Layout.shape r.table e.line.text = e.mark.shape := by
  intro e he
  obtain ⟨line, hline, hwrites⟩ := exists_writes he
  obtain ⟨htrimmed, hne, -⟩ := text_of_mem_history he
  have hcontent : '<' ∉ line.content := fun hmem => hfree ((of_mem_significant hline).2 hmem)
  exact ⟨htrimmed, hne, shape_of_writes hcontent (hletters line hline) hwrites⟩

/-- An entry of a history as layout should place it: behind `unit` spaces for each container
around it. -/
def atDepth (unit : Nat) (e : Entry) : Text :=
  List.replicate (unit * e.around.length) ' ' ++ e.line.text

theorem newline_notMem_atDepth {source : Text} {e : Entry}
    (he : e ∈ r.history (significant source)) (unit : Nat) : '\n' ∉ atDepth unit e := by
  intro hmem
  rcases List.mem_append.mp hmem with hmem | hmem
  · exact absurd (List.eq_of_mem_replicate hmem) (by decide)
  · exact (text_of_mem_history he).2.2 hmem

/-- **Layout finds the depth.** If a source has no opening bracket and the names of its containers
begin with a letter, each line of the formatted output is the line of the outline behind `unit`
spaces for each container that is open around it. -/
theorem output_at_depth (r : Renderer) (source : Text) (rendered : Rendered)
    (hformat : r.options.formatOutput = true) (hfree : '<' ∉ source)
    (hletters : r.LetterNames source) (h : r.render source = .ok rendered) :
    r.placedLines (significant source) =
        .ok ((r.history (significant source)).map Entry.line) ∧
      rendered.output = Text.unlines
        ((r.history (significant source)).map (atDepth r.options.indentUnit)) ∧
      (r.history (significant source) ≠ [] → Text.lines rendered.output =
        (r.history (significant source)).map (atDepth r.options.indentUnit)) := by
  have hlayout := (render_eq_ok_iff.mp h).1
  rw [layOut, if_pos hformat, Layout.formatLines, List.map_map] at hlayout
  obtain ⟨placed, hplaced, hout⟩ := bind_eq_ok_iff.mp hlayout
  -- The counter starts at the number of containers that are open at first, which is none.
  have hcounted : (r.history (significant source)).mapM
      (fun e => pad (r.options.indentUnit * e.around.length) e.line.text) = .ok placed := by
    rw [← hplaced]
    exact (Layout.placeFrom_of_path (path_history _) (shape_of_mem_history hfree hletters)).symm
  have hdepths : placed =
      (r.history (significant source)).map (atDepth r.options.indentUnit) :=
    eq_map_of_mapM_pad hcounted
  have hunlines : rendered.output = Text.unlines
      ((r.history (significant source)).map (atDepth r.options.indentUnit)) := by
    rw [← hdepths]
    exact (Except.ok.inj hout).symm
  refine ⟨placedLines_eq_history _, hunlines, fun hne => ?_⟩
  rw [hunlines, Text.lines_unlines (by simpa using hne)]
  intro line hline
  obtain ⟨e, he, rfl⟩ := List.mem_map.mp hline
  exact newline_notMem_atDepth he _

/-- A line at a width never seen before closes one container and stands in the other. -/
theorem output_at_depth_dedent :
    '<' ∉ "%a\n   %i\n    %BR\n  e\n%p f".toList ∧
    Renderer.LetterNames {} "%a\n   %i\n    %BR\n  e\n%p f".toList ∧
    Renderer.render {} "%a\n   %i\n    %BR\n  e\n%p f".toList = .ok
      ⟨"<a>\n  <i>\n    <BR />\n  </i>\n  e\n</a>\n<p>f</p>".toList, []⟩ ∧
    "<a>\n  <i>\n    <BR />\n  </i>\n  e\n</a>\n<p>f</p>".toList = Text.unlines
      ((Renderer.history {}
        (significant "%a\n   %i\n    %BR\n  e\n%p f".toList)).map (atDepth 2)) := by
  have hfree : '<' ∉ "%a\n   %i\n    %BR\n  e\n%p f".toList := by decide
  have hletters : Renderer.LetterNames {} "%a\n   %i\n    %BR\n  e\n%p f".toList := by
    have hall : ((significant "%a\n   %i\n    %BR\n  e\n%p f".toList).all fun line =>
        !Renderer.opens {} line ||
          (Renderer.fragment {} line).name.head?.any Char.isAlpha) = true := by
      cbv
    intro line hline hopens
    have hline' := List.all_eq_true.mp hall line hline
    rwa [hopens, Bool.not_true, Bool.false_or] at hline'
  have hrender : Renderer.render {} "%a\n   %i\n    %BR\n  e\n%p f".toList = .ok
      ⟨"<a>\n  <i>\n    <BR />\n  </i>\n  e\n</a>\n<p>f</p>".toList, []⟩ := by
    cbv
  exact ⟨hfree, hletters, hrender, (output_at_depth {} _ _ rfl hfree hletters hrender).2.1⟩

end Renderer

end Offside
