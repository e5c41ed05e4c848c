import Offside.Document

/-!
# One line at a time

The outline of a document is built by a loop that may stop at a nesting error. It never does: a
line is added only after its width has closed every container it does not stand in, and then it
fits (`Outline.add_closeUntil`). So the loop is a plain fold of one total step, `Renderer.step`,
and every law of whole documents is an induction over that step:

* `Renderer.fragment`, `Renderer.opens`, `Renderer.markup` and `Renderer.frame` name what a line
  contributes, apart from any outline;
* `Renderer.addLine_closeUntil` is the step;
* `Renderer.placedLines_eq` is the run.
-/

namespace Offside

namespace Renderer

variable (r : Renderer)

/-- The fragment of a tag line. -/
def fragment (line : Line) : Fragment :=
  (Tag.read r.table line.content).tag.fragment r.options.voidStyle

/-- A line opens a container when it is a tag line whose fragment stays open. -/
def opens (line : Line) : Bool :=
  line.kind = .tag && (r.fragment line).kind = .opening

/-- The markup of a significant line: the fragment of a tag line, the content of a plain one. -/
def markup (line : Line) : Text :=
  if line.kind = .tag then (r.fragment line).html else line.content

/-- The container that an opening line opens. -/
def frame (line : Line) : Frame :=
  { name := (r.fragment line).name, indent := line.indent }

/-- What one significant line does to an outline. -/
def step (o : Outline) (line : Line) : Outline :=
  if r.opens line then
    (o.closeUntil line.indent).openFrame (r.frame line) (r.markup line)
  else
    (o.closeUntil line.indent).addText line.indent (r.markup line)

variable {r}

@[simp] theorem frame_indent (line : Line) : (r.frame line).indent = line.indent := rfl

theorem opens_iff {line : Line} :
    r.opens line = true ↔ line.kind = .tag ∧ (r.fragment line).kind = .opening := by
  simp [opens]

theorem markup_of_tag {line : Line} (h : line.kind = .tag) :
    r.markup line = (r.fragment line).html :=
  if_pos h

theorem markup_of_not_tag {line : Line} (h : line.kind ≠ .tag) : r.markup line = line.content :=
  if_neg h

/-- **The step.** After its width has closed what it must, a line is never refused. -/
theorem addLine_closeUntil (o : Outline) (line : Line) :
    r.addLine (o.closeUntil line.indent) line = .ok (r.step o line) := by
  unfold addLine
  by_cases htag : line.kind = .tag
  · rw [if_pos htag]
    change (o.closeUntil line.indent).add (line.number + 1) line.indent (r.fragment line) = _
    rw [Outline.add_closeUntil, step, markup_of_tag htag]
    -- Among tag lines, those that open a container are those whose fragment does.
    by_cases hopening : (r.fragment line).kind = .opening
    · rw [if_pos hopening, if_pos (opens_iff.mpr ⟨htag, hopening⟩)]
      rfl
    · rw [if_neg hopening, if_neg fun h => hopening (opens_iff.mp h).2]
  · rw [if_neg htag, step, if_neg fun h => htag (opens_iff.mp h).1, markup_of_not_tag htag]

/-- **The run.** The loop over the lines never stops early: it folds the step. -/
theorem outlineFrom_eq (o : Outline) (lines : List Line) :
    r.outlineFrom o lines = .ok (lines.foldl r.step o) := by
  induction lines generalizing o with
  | nil => rfl
  | cons line rest ih =>
    rw [outlineFrom, addLine_closeUntil]
    exact ih (r.step o line)

theorem placedLines_eq (lines : List Line) :
    r.placedLines lines = .ok (lines.foldl r.step {}).finish := by
  rw [placedLines, outlineFrom_eq]
  rfl

end Renderer

end Offside
