import Mathlib
import Offside.Proofs.LineStep

/-!
# The forest of a document

Indentation draws a forest. A line that opens a container takes as its children the lines that
follow it and are indented deeper, up to the first that is not; every other line stands alone,
and deeper lines after it are its siblings. `Forest.ofLines` reads that forest off the lines by
recursion on maximal deeper runs, and `Renderer.flatten` writes it down in pre-order. Neither
knows of a stack.

The outline works the other way round. It holds the containers that are open and closes them
only when a later line is not deep enough, several at once if need be, and the rest at the end.
The two meet in `Renderer.unwind`, which says what a *given* stack still owes: each open
container, innermost first, takes the run of lines deeper than itself and is then closed, and
what comes after the outermost is a forest of its own. With nothing open that is the forest of
the document (`Renderer.placedLines_eq_flatten`).

The simulation is an induction on the lines for an arbitrary stack (`Renderer.finish_foldl_step`),
and it asks nothing of the stack, not even that widths grow inwards: a line closes the top of the
stack exactly when the run of lines that the top may still take is empty.
-/

namespace Offside

/-- A forest of source lines, by first child and next sibling. -/
inductive Forest where
  | empty
  /-- A line without children, and the siblings after it. -/
  | leaf (line : Line) (next : Forest)
  /-- A line that opens a container, its children, and the siblings after it. -/
  | container (line : Line) (children next : Forest)
  deriving DecidableEq, Repr

namespace Forest

/-- The line stands deeper than a width. -/
def isDeeper (indent : Nat) (line : Line) : Bool :=
  indent < line.indent

/-- The forest that indentation draws: a line that opens a container has the maximal run of
deeper lines after it as its children. -/
def ofLines (opens : Line → Bool) : List Line → Forest
  | [] => .empty
  | line :: rest =>
    if opens line then
      .container line (ofLines opens (rest.takeWhile (isDeeper line.indent)))
        (ofLines opens (rest.dropWhile (isDeeper line.indent)))
    else
      .leaf line (ofLines opens rest)
termination_by lines => lines.length
decreasing_by
  · exact Nat.lt_succ_of_le (List.takeWhile_sublist _).length_le
  · exact Nat.lt_succ_of_le (List.dropWhile_sublist _).length_le
  · exact Nat.lt_succ_self rest.length

variable {opens : Line → Bool} {line : Line}

@[simp] theorem ofLines_nil : ofLines opens [] = .empty := by rw [ofLines]

theorem ofLines_cons_leaf (h : ¬ opens line = true) (rest : List Line) :
    ofLines opens (line :: rest) = .leaf line (ofLines opens rest) := by
  rw [ofLines, if_neg h]

theorem ofLines_cons_container (h : opens line = true) (rest : List Line) :
    ofLines opens (line :: rest) =
      .container line (ofLines opens (rest.takeWhile (isDeeper line.indent)))
        (ofLines opens (rest.dropWhile (isDeeper line.indent))) := by
  rw [ofLines, if_pos h]

end Forest

/-! ### Runs of deeper lines

A container inside another takes a run within the other's run, so the inner run can be cut off
before or after the outer one. -/

namespace Forest

variable {inner outer : Nat}

theorem isDeeper_of_lt (h : outer < inner) {line : Line} (hline : isDeeper inner line = true) :
    isDeeper outer line = true := by
  simp only [isDeeper, decide_eq_true_eq] at hline ⊢
  omega

theorem takeWhile_takeWhile_isDeeper (h : outer < inner) (lines : List Line) :
    (lines.takeWhile (isDeeper outer)).takeWhile (isDeeper inner) =
      lines.takeWhile (isDeeper inner) := by
  rw [List.takeWhile_takeWhile]
  congr 1
  funext line
  by_cases hline : isDeeper inner line = true
  · simp [hline, isDeeper_of_lt h hline]
  · simp [hline]

/-- What the outer run has left after the inner one is the outer run of what the inner one has
left. -/
theorem dropWhile_takeWhile_isDeeper (h : outer < inner) (lines : List Line) :
    (lines.takeWhile (isDeeper outer)).dropWhile (isDeeper inner) =
      (lines.dropWhile (isDeeper inner)).takeWhile (isDeeper outer) := by
  induction lines with
  | nil => rfl
  | cons line rest ih =>
    by_cases hin : isDeeper inner line = true
    · rw [List.takeWhile_cons_of_pos (isDeeper_of_lt h hin), List.dropWhile_cons_of_pos hin,
        List.dropWhile_cons_of_pos hin]
      exact ih
    · -- The inner run ends here. Whether the outer one does too, both sides cut it at this line.
      rw [List.dropWhile_cons_of_neg hin]
      by_cases hout : isDeeper outer line = true
      · rw [List.takeWhile_cons_of_pos hout, List.dropWhile_cons_of_neg hin]
      · rw [List.takeWhile_cons_of_neg hout, List.dropWhile_nil]

/-- Nothing after the outer run is in the inner one. -/
theorem dropWhile_dropWhile_isDeeper (h : outer < inner) (lines : List Line) :
    (lines.dropWhile (isDeeper inner)).dropWhile (isDeeper outer) =
      lines.dropWhile (isDeeper outer) := by
  induction lines with
  | nil => rfl
  | cons line rest ih =>
    by_cases hin : isDeeper inner line = true
    · rw [List.dropWhile_cons_of_pos hin, List.dropWhile_cons_of_pos (isDeeper_of_lt h hin)]
      exact ih
    · rw [List.dropWhile_cons_of_neg hin]

end Forest

/-! ### Pre-order -/

namespace Renderer

variable (r : Renderer)

/-- A forest in pre-order: a line at its own width, the children of a container after it, and
after these the closing tag at the container's width. -/
def flatten : Forest → List PlacedLine
  | .empty => []
  | .leaf line next => ⟨line.indent, r.markup line⟩ :: flatten next
  | .container line children next =>
    ⟨line.indent, r.markup line⟩ ::
      (flatten children ++
        ⟨line.indent, Fragment.closingTag (r.fragment line).name⟩ :: flatten next)

def preorder (lines : List Line) : List PlacedLine :=
  r.flatten (.ofLines r.opens lines)

/-- What is written from some lines on while containers are open, innermost first: each takes the
lines deeper than itself and is closed after them. -/
def unwind : List Frame → List Line → List PlacedLine
  | [], lines => r.preorder lines
  | frame :: outer, lines =>
    r.preorder (lines.takeWhile (Forest.isDeeper frame.indent)) ++
      frame.closing :: unwind outer (lines.dropWhile (Forest.isDeeper frame.indent))

variable {r}

@[simp] theorem preorder_nil : r.preorder [] = [] := by
  rw [preorder, Forest.ofLines_nil, flatten]

theorem preorder_cons_leaf {line : Line} (h : ¬ r.opens line = true) (rest : List Line) :
    r.preorder (line :: rest) = ⟨line.indent, r.markup line⟩ :: r.preorder rest := by
  rw [preorder, Forest.ofLines_cons_leaf h, flatten, preorder]

theorem preorder_cons_container {line : Line} (h : r.opens line = true) (rest : List Line) :
    r.preorder (line :: rest) =
      ⟨line.indent, r.markup line⟩ ::
        (r.preorder (rest.takeWhile (Forest.isDeeper line.indent)) ++
          (r.frame line).closing ::
            r.preorder (rest.dropWhile (Forest.isDeeper line.indent))) := by
  rw [preorder, Forest.ofLines_cons_container h, flatten]
  rfl

/-! ### The stack owes the forest -/

@[simp] theorem unwind_nil (frames : List Frame) :
    r.unwind frames [] = frames.map Frame.closing := by
  induction frames with
  | nil => exact preorder_nil
  | cons frame outer ih =>
    rw [unwind, List.takeWhile_nil, List.dropWhile_nil, preorder_nil, List.nil_append, ih,
      List.map_cons]

/-- Before a line, the stack first closes the containers that are not narrower than it: the run
of lines that each of them may still take is empty. -/
theorem unwind_closeUntil (frames : List Frame) (line : Line) (rest : List Line) :
    r.unwind frames (line :: rest) =
      (frames.takeWhile (line.indent ≤ ·.indent)).map Frame.closing ++
        r.unwind (frames.dropWhile (line.indent ≤ ·.indent)) (line :: rest) := by
  induction frames with
  | nil => rfl
  | cons frame outer ih =>
    by_cases h : line.indent ≤ frame.indent
    · have hrun : ¬ Forest.isDeeper frame.indent line = true := by
        simpa [Forest.isDeeper] using h
      rw [List.takeWhile_cons_of_pos (by simpa using h),
        List.dropWhile_cons_of_pos (by simpa using h), unwind,
        List.takeWhile_cons_of_neg hrun, List.dropWhile_cons_of_neg hrun, preorder_nil,
        List.nil_append, ih, List.map_cons, List.cons_append]
    · rw [List.takeWhile_cons_of_neg (by simpa using h),
        List.dropWhile_cons_of_neg (by simpa using h), List.map_nil, List.nil_append]

/-- A line that stands in the innermost container and opens nothing is written and leaves the
stack as it was. -/
theorem unwind_leaf {frames : List Frame} {line : Line}
    (hin : ∀ f ∈ frames.head?, f.indent < line.indent) (h : ¬ r.opens line = true)
    (rest : List Line) :
    r.unwind frames (line :: rest) = ⟨line.indent, r.markup line⟩ :: r.unwind frames rest := by
  cases frames with
  | nil => exact preorder_cons_leaf h rest
  | cons frame outer =>
    have hrun : Forest.isDeeper frame.indent line = true := by
      simpa [Forest.isDeeper] using hin frame rfl
    rw [unwind, List.takeWhile_cons_of_pos hrun, List.dropWhile_cons_of_pos hrun,
      preorder_cons_leaf h, List.cons_append, unwind]

/-- A line that stands in the innermost container and opens one is written and goes on top of the
stack. -/
theorem unwind_container {frames : List Frame} {line : Line}
    (hin : ∀ f ∈ frames.head?, f.indent < line.indent) (h : r.opens line = true)
    (rest : List Line) :
    r.unwind frames (line :: rest) =
      ⟨line.indent, r.markup line⟩ :: r.unwind (r.frame line :: frames) rest := by
  cases frames with
  | nil => exact preorder_cons_container h rest
  | cons frame outer =>
    have hlt : frame.indent < line.indent := hin frame rfl
    have hrun : Forest.isDeeper frame.indent line = true := by
      simpa [Forest.isDeeper] using hlt
    -- Both sides cut the rest at the line's own run and at that of the container around it.
    rw [unwind, List.takeWhile_cons_of_pos hrun, List.dropWhile_cons_of_pos hrun,
      preorder_cons_container h, Forest.takeWhile_takeWhile_isDeeper hlt,
      Forest.dropWhile_takeWhile_isDeeper hlt, unwind, unwind, frame_indent,
      Forest.dropWhile_dropWhile_isDeeper hlt, List.cons_append, List.append_assoc,
      List.cons_append]

/-- What the step of a line leaves on the stack has been written or is still owed. -/
theorem unwind_step (o : Outline) (line : Line) (rest : List Line) :
    o.lines.toList ++ r.unwind o.frames (line :: rest) =
      (r.step o line).lines.toList ++ r.unwind (r.step o line).frames rest := by
  have hin := Outline.indent_lt_of_closeUntil o line.indent
  rw [unwind_closeUntil, ← Outline.frames_closeUntil, step]
  -- What the width closes is written in both cases; the rest follows the kind of the line.
  by_cases h : r.opens line = true
  · rw [if_pos h, unwind_container hin h]
    simp [Outline.openFrame, Outline.closeUntil, frame]
  · rw [if_neg h, unwind_leaf hin h]
    simp [Outline.addText, Outline.closeUntil]

/-- **The simulation.** From any outline on, what the run over the lines ends with is what was
written before and what the stack owes for them. -/
theorem finish_foldl_step (o : Outline) (lines : List Line) :
    (lines.foldl r.step o).finish = o.lines.toList ++ r.unwind o.frames lines := by
  -- The stack changes from line to line, so the claim is carried for all outlines at once.
  induction lines generalizing o with
  | nil => rw [List.foldl_nil, Outline.finish, unwind_nil]
  | cons line rest ih => rw [List.foldl_cons, ih, unwind_step]

/-- **Indentation is a forest.** For every source, the markup lines that the outline ends with
are the pre-order of the forest that the significant lines draw. -/
theorem placedLines_eq_flatten (r : Renderer) (source : Text) :
    r.placedLines (significant source) =
      .ok (r.flatten (.ofLines r.opens (significant source))) := by
  rw [placedLines_eq, finish_foldl_step]
  rfl

end Renderer

end Offside
