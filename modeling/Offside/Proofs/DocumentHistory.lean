import Offside.Proofs.History
import Offside.Proofs.TagText

/-!
# The history of a document

A document is a run of calls: each significant line closes by its width and then adds its markup
(`Renderer.calls`). Its history is therefore well-nested like any other, and the markup lines of
the document are the lines of its history (`Renderer.placedLines_eq_history`).

Every entry of the history is owed to one source line, as its start tag, as its only markup or as
its closing tag (`Renderer.Writes`, `Renderer.exists_writes`). The induction runs over the lines
for any outline, with the lines read before at hand, since a closing tag is owed to a line that
may be far behind. What is known of the markup of a line is thereby known of every line of the
output: it is not empty, it is trimmed, and it holds no line feed.
-/

namespace Offside

open Outline

namespace Renderer

variable (r : Renderer)

/-! ### Documents as runs -/

/-- The call that adds the markup of a line. -/
def addition (line : Line) : Call :=
  if line.kind = .tag then .add (line.number + 1) line.indent (r.fragment line)
  else .addText line.indent line.content

/-- The calls of a document: each line closes by its width and adds its markup. -/
def calls (lines : List Line) : List Call :=
  lines.flatMap fun line => [.closeUntil line.indent, r.addition line]

/-- The history of a document. -/
def history (lines : List Line) : List Entry :=
  Outline.history {} (r.calls lines)

/-- What the line itself writes, after the containers that its width closes. -/
def entry (o : Outline) (line : Line) : Entry where
  mark := if r.opens line then .opens (r.frame line) else .stands
  line := ⟨line.indent, r.markup line⟩
  around := (o.closeUntil line.indent).frames

variable {r}

/-- The addition of a line is its step: it is never refused, and it writes one entry. -/
theorem addition_spec (o : Outline) (line : Line) :
    (r.addition line).run (o.closeUntil line.indent) = r.step o line ∧
      (r.addition line).entries (o.closeUntil line.indent) = [r.entry o line] := by
  -- The step lemma says which outline the addition returns; the entry follows the line's kind.
  have hstep := addLine_closeUntil (r := r) o line
  unfold addLine at hstep
  unfold addition entry
  by_cases htag : line.kind = .tag
  · rw [if_pos htag] at hstep ⊢
    change (o.closeUntil line.indent).add (line.number + 1) line.indent (r.fragment line) = _
      at hstep
    rw [Call.run, Call.entries, run_write, hstep, markup_of_tag htag]
    refine ⟨rfl, ?_⟩
    by_cases hopening : (r.fragment line).kind = .opening
    · rw [if_pos (opens_iff.mpr ⟨htag, hopening⟩)]
      exact if_pos hopening
    · rw [if_neg fun h => hopening (opens_iff.mp h).2]
      exact if_neg hopening
  · have hopens : ¬ r.opens line = true := fun h => htag (opens_iff.mp h).1
    rw [if_neg htag] at hstep ⊢
    rw [Call.run, Call.entries, Except.ok.inj hstep, if_neg hopens, markup_of_not_tag htag]
    exact ⟨rfl, rfl⟩

theorem calls_cons (line : Line) (rest : List Line) :
    r.calls (line :: rest) = .closeUntil line.indent :: r.addition line :: r.calls rest := rfl

theorem run_calls (o : Outline) (lines : List Line) :
    o.run (r.calls lines) = lines.foldl r.step o := by
  induction lines generalizing o with
  | nil => rfl
  | cons line rest ih =>
    rw [calls_cons, run_cons, run_cons, List.foldl_cons, ← ih]
    change ((r.addition line).run (o.closeUntil line.indent)).run (r.calls rest) = _
    rw [(addition_spec o line).1]

theorem history_calls_cons (o : Outline) (line : Line) (rest : List Line) :
    o.history (r.calls (line :: rest)) =
      closings line.indent o.frames ++
        r.entry o line :: (r.step o line).history (r.calls rest) := by
  obtain ⟨hrun, hentries⟩ := addition_spec (r := r) o line
  rw [calls_cons, Outline.history, Outline.history]
  change closings line.indent o.frames ++
    ((r.addition line).entries (o.closeUntil line.indent) ++
      ((r.addition line).run (o.closeUntil line.indent)).history (r.calls rest)) = _
  rw [hrun, hentries, List.singleton_append]

/-- **The markup lines of a document are the lines of its history.** -/
theorem placedLines_eq_history (lines : List Line) :
    r.placedLines lines = .ok ((r.history lines).map Entry.line) := by
  rw [placedLines_eq, ← run_calls, finish_run]
  rfl

theorem path_history (lines : List Line) : Outline.Path [] (r.history lines) [] :=
  Outline.path_history {} (r.calls lines)

theorem nested_history (lines : List Line) : Nested (r.history lines) :=
  wellNested_history (r.calls lines)

/-! ### What a line writes -/

/-- The entries that a line is answerable for: its start tag and its closing tag if it opens a
container, and its markup if it does not. -/
inductive Writes (r : Renderer) (line : Line) : Entry → Prop
  | opens (h : r.opens line = true) (around : List Frame) :
      Writes r line ⟨.opens (r.frame line), ⟨line.indent, r.markup line⟩, around⟩
  | stands (h : ¬ r.opens line = true) (around : List Frame) :
      Writes r line ⟨.stands, ⟨line.indent, r.markup line⟩, around⟩
  | closes (h : r.opens line = true) (around : List Frame) :
      Writes r line ⟨.closes, (r.frame line).closing, around⟩

theorem writes_entry (o : Outline) (line : Line) : r.Writes line (r.entry o line) := by
  unfold entry
  by_cases h : r.opens line = true
  · rw [if_pos h]; exact .opens h _
  · rw [if_neg h]; exact .stands h _

theorem exists_of_mem_closings {indent : Nat} {frames : List Frame} {e : Entry}
    (h : e ∈ closings indent frames) :
    ∃ f ∈ frames, ∃ around, e = ⟨.closes, f.closing, around⟩ := by
  induction frames with
  | nil => exact absurd h List.not_mem_nil
  | cons top rest ih =>
    rw [closings] at h
    split at h
    · rcases List.mem_cons.mp h with rfl | h
      · exact ⟨top, List.mem_cons_self, rest, rfl⟩
      · obtain ⟨f, hf, hafter⟩ := ih h
        exact ⟨f, List.mem_cons_of_mem _ hf, hafter⟩
    · exact absurd h List.not_mem_nil

/-- A step leaves only containers open that were open before or that its line opens. -/
theorem mem_frames_step {o : Outline} {line : Line} {f : Frame}
    (h : f ∈ (r.step o line).frames) :
    f ∈ o.frames ∨ r.opens line = true ∧ f = r.frame line := by
  have hkept : ∀ g ∈ (o.closeUntil line.indent).frames, g ∈ o.frames := fun g hg =>
    (List.dropWhile_sublist _).subset hg
  unfold step at h
  split at h
  · rename_i hopens
    rcases List.mem_cons.mp h with rfl | h
    · exact Or.inr ⟨hopens, rfl⟩
    · exact Or.inl (hkept f h)
  · exact Or.inl (hkept f h)

/-- Every open container was opened by one of the lines read so far. -/
def OpenedBy (r : Renderer) (read : List Line) (o : Outline) : Prop :=
  ∀ f ∈ o.frames, ∃ line ∈ read, r.opens line = true ∧ f = r.frame line

theorem OpenedBy.step {read : List Line} {o : Outline} (h : r.OpenedBy read o) (line : Line) :
    r.OpenedBy (read ++ [line]) (r.step o line) := by
  intro f hf
  rcases mem_frames_step hf with hf | ⟨hopens, rfl⟩
  · obtain ⟨l, hl, hopens⟩ := h f hf
    exact ⟨l, List.mem_append_left _ hl, hopens⟩
  · exact ⟨line, List.mem_append_right _ List.mem_cons_self, hopens, rfl⟩

theorem OpenedBy.writes_closing {read : List Line} {o : Outline} (h : r.OpenedBy read o)
    {indent : Nat} {e : Entry} (he : e ∈ closings indent o.frames) :
    ∃ line ∈ read, r.Writes line e := by
  obtain ⟨f, hf, around, rfl⟩ := exists_of_mem_closings he
  obtain ⟨line, hline, hopens, rfl⟩ := h f hf
  exact ⟨line, hline, .closes hopens around⟩

theorem OpenedBy.exists_writes {read lines : List Line} {o : Outline} (h : r.OpenedBy read o)
    {e : Entry} (he : e ∈ o.history (r.calls lines)) : ∃ line ∈ read ++ lines, r.Writes line e := by
  induction lines generalizing o read with
  | nil =>
    rw [List.append_nil]
    exact h.writes_closing he
  | cons line rest ih =>
    -- The entry closes what was open, is that of the line, or comes after the line's step.
    rw [history_calls_cons] at he
    rcases List.mem_append.mp he with he | he
    · obtain ⟨l, hl, hwrites⟩ := h.writes_closing he
      exact ⟨l, List.mem_append_left _ hl, hwrites⟩
    · rcases List.mem_cons.mp he with rfl | he
      · exact ⟨line, List.mem_append_right _ List.mem_cons_self, writes_entry o line⟩
      · obtain ⟨l, hl, hwrites⟩ := ih (h.step line) he
        rw [List.append_assoc, List.singleton_append] at hl
        exact ⟨l, hl, hwrites⟩

/-- **Every entry is owed to a line of the document.** -/
theorem exists_writes {lines : List Line} {e : Entry} (h : e ∈ r.history lines) :
    ∃ line ∈ lines, r.Writes line e := by
  have hnone : r.OpenedBy [] {} := fun _ hf => absurd hf List.not_mem_nil
  exact hnone.exists_writes h

/-! ### The texts of a history -/

/-- A significant line has content. -/
theorem content_ne_nil {source : Text} {line : Line} (h : line ∈ significant source) :
    line.content ≠ [] := by
  intro hnil
  have hsig := (List.mem_filter.mp h).2
  simp [Line.isSignificant, Line.kind, hnil, Line.Kind.ofContent] at hsig

theorem of_mem_significant {source : Text} {line : Line} (h : line ∈ significant source) :
    '\n' ∉ line.content ∧ line.content ⊆ source := by
  obtain ⟨hfeed, hsub⟩ := Line.of_mem_ofSource (List.mem_filter.mp h).1
  exact ⟨fun hmem => hfeed (line.content_subset hmem),
    List.Subset.trans line.content_subset hsub⟩

theorem isName_fragment (line : Line) : Tag.IsName (r.fragment line).name := by
  rw [fragment, Tag.name_fragment]
  exact Tag.isName_read r.table line.content

/-- **What the markup of a line can be.** Its content, or what some tag that was cut from the line
is written as: the start tag of a container, a void element, or an element with content. -/
theorem markup_cases (r : Renderer) (line : Line) :
    (¬ r.opens line = true ∧ r.markup line = line.content) ∨
    ∃ tag : Tag, tag.Within line.content ∧ tag.name = (r.fragment line).name ∧
      ((r.opens line = true ∧ r.table.contains tag.name = false ∧
          r.markup line = tag.head ++ ['>']) ∨
        (¬ r.opens line = true ∧ r.table.contains tag.name = true ∧
          r.markup line = tag.head ++ r.options.voidStyle.terminator) ∨
        (¬ r.opens line = true ∧ r.table.contains tag.name = false ∧
          ∃ content, content ⊆ line.content ∧
            r.markup line = tag.head ++ ['>'] ++ content ++ Fragment.closingTag tag.name)) := by
  by_cases htag : line.kind = .tag
  · have hwithin := Tag.within_read r.table line.content
    have hvoid := Tag.isVoid_read r.table line.content
    refine Or.inr ⟨(Tag.read r.table line.content).tag, hwithin, (Tag.name_fragment _ _).symm, ?_⟩
    -- Whether the line opens a container and what it writes are both read off the fragment.
    rw [markup_of_tag htag, opens, fragment, ← hvoid]
    rcases Tag.fragment_cases r.options.voidStyle (Tag.read r.table line.content).tag with
      ⟨hvoid, hf⟩ | ⟨hvoid, content, hcontent, hf⟩ | ⟨hvoid, -, hf⟩
    · rw [hf]
      exact Or.inr (Or.inl ⟨by simp, hvoid, rfl⟩)
    · rw [hf]
      exact Or.inr (Or.inr ⟨by simp, hvoid, content, hwithin.content content hcontent, rfl⟩)
    · rw [hf]
      exact Or.inl ⟨by simp [htag], hvoid, rfl⟩
  · exact Or.inl ⟨fun h => htag (opens_iff.mp h).1, markup_of_not_tag htag⟩

theorem trimmed_markup (line : Line) : Text.Trimmed (r.markup line) := by
  unfold markup
  split
  · exact Tag.trimmed_fragment _ _
  · exact line.trimmed_content

theorem markup_ne_nil {line : Line} (h : line.content ≠ []) : r.markup line ≠ [] := by
  unfold markup
  split
  · obtain ⟨inside, hinside⟩ := Tag.exists_fragment_html r.options.voidStyle
      (Tag.read r.table line.content).tag
    rw [fragment, hinside]
    exact List.cons_ne_nil _ _
  · exact h

/-- Markup holds the characters of its line and what writing adds. -/
theorem markup_subset (line : Line) :
    r.markup line ⊆ line.content ++ Tag.punctuation ++ Tag.brackets := by
  unfold markup
  split
  · exact Tag.fragment_subset (Tag.within_read r.table line.content) _
  · rw [List.append_assoc]
    exact List.subset_append_left _ _

/-- The texts of a history are trimmed, not empty and without line feeds. -/
theorem text_of_mem_history {source : Text} {e : Entry} (h : e ∈ r.history (significant source)) :
    Text.Trimmed e.line.text ∧ e.line.text ≠ [] ∧ '\n' ∉ e.line.text := by
  obtain ⟨line, hline, hwrites⟩ := exists_writes h
  have hne := content_ne_nil hline
  -- Neither the content of a line nor anything that writing adds to it has a line feed.
  have hmarkup : '\n' ∉ r.markup line := by
    intro hmem
    rcases List.mem_append.mp (markup_subset line hmem) with hmem | hmem
    · rcases List.mem_append.mp hmem with hmem | hmem
      · exact (of_mem_significant hline).1 hmem
      · exact absurd hmem (by decide)
    · exact absurd hmem (by decide)
  cases hwrites with
  | opens _ around => exact ⟨trimmed_markup line, markup_ne_nil hne, hmarkup⟩
  | stands _ around => exact ⟨trimmed_markup line, markup_ne_nil hne, hmarkup⟩
  | closes _ around =>
    refine ⟨Fragment.trimmed_closingTag _, List.cons_ne_nil _ _, ?_⟩
    -- A name has no line feed, since it is made of name characters.
    have hname : '\n' ∉ (r.fragment line).name := fun hmem =>
      absurd ((isName_fragment line).2 '\n' hmem) (by decide)
    change '\n' ∉ ['<', '/'] ++ (r.fragment line).name ++ ['>']
    simp only [List.mem_append, not_or]
    exact ⟨⟨by decide, hname⟩, by decide⟩

end Renderer

end Offside
