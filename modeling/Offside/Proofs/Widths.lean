import Offside.Proofs.Arrangement

/-!
# Only the order of widths matters

The outline compares widths and does nothing else with them. Two documents whose significant lines
have the same contents, and whose widths are in the same order, therefore open and close their
containers in lockstep. The one run is the image of the other under the change of widths: of the
containers that are open, of the lines that are written, and of the closing tags, which take the
widths of the lines that opened them.

* `Renderer.step_rewidth` is the step: a line does to the image of an outline what its counterpart
  does to the outline. The comparison of widths is all that has to be kept for it
  (`Outline.closeUntil_rewidth`).
* `Renderer.foldl_step_rewidth` is the run.
* `Renderer.render_rewidth` says what follows for the outputs. Laid out by depth, they are the
  same; at the widths of the source, they have the same lines at the changed widths.

The change of widths need only be increasing on the widths that occur. A function that is
increasing on all numbers could not move a line to the left.
-/

namespace Offside

open Outline

variable {f : Nat → Nat}

/-! ### Other widths -/

def Frame.rewidth (f : Nat → Nat) (frame : Frame) : Frame :=
  { frame with indent := f frame.indent }

def PlacedLine.rewidth (f : Nat → Nat) (p : PlacedLine) : PlacedLine :=
  ⟨f p.indent, p.text⟩

/-- A line with the content of another, at the width that its width is changed to. -/
structure Line.Rewidthed (f : Nat → Nat) (line line' : Line) : Prop where
  content : line'.content = line.content
  indent : line'.indent = f line.indent

/-- Contents and widths line by line. -/
theorem forall₂_rewidthed {lines lines' : List Line}
    (hcontent : lines'.map Line.content = lines.map Line.content)
    (hindent : lines'.map Line.indent = lines.map fun line => f line.indent) :
    List.Forall₂ (Line.Rewidthed f) lines lines' := by
  induction lines generalizing lines' with
  | nil =>
    obtain rfl : lines' = [] := List.map_eq_nil_iff.mp hcontent
    exact .nil
  | cons line rest ih =>
    obtain ⟨line', rest', rfl, hline, hrest⟩ := List.map_eq_cons_iff.mp hcontent
    obtain ⟨hwidth, hwidths⟩ := List.cons.inj hindent
    exact .cons ⟨hline, hwidth⟩ (ih hrest hwidths)

theorem PlacedLine.map_rewidth_id (ps : List PlacedLine) : ps.map (PlacedLine.rewidth id) = ps :=
  List.map_id ps

namespace Outline

/-- The outline that stands at the changed widths, with all that it has written. -/
def rewidth (f : Nat → Nat) (o : Outline) : Outline where
  frames := o.frames.map (Frame.rewidth f)
  lines := o.lines.map (PlacedLine.rewidth f)

@[simp] theorem rewidth_empty : rewidth f {} = {} := by
  simp [rewidth]

theorem finish_rewidth (o : Outline) :
    (o.rewidth f).finish = o.finish.map (PlacedLine.rewidth f) := by
  rw [finish, finish, rewidth, Array.toList_map, List.map_append, List.map_map, List.map_map]
  rfl

/-- Where the change of widths keeps comparisons, going down the stack stops at the same
container. -/
theorem cut_rewidth {frames : List Frame} {indent : Nat}
    (h : ∀ frame ∈ frames, f indent ≤ f frame.indent ↔ indent ≤ frame.indent) :
    (frames.map (Frame.rewidth f)).takeWhile (f indent ≤ ·.indent) =
        (frames.takeWhile (indent ≤ ·.indent)).map (Frame.rewidth f) ∧
      (frames.map (Frame.rewidth f)).dropWhile (f indent ≤ ·.indent) =
        (frames.dropWhile (indent ≤ ·.indent)).map (Frame.rewidth f) := by
  induction frames with
  | nil => exact ⟨rfl, rfl⟩
  | cons top rest ih =>
    obtain ⟨htake, hdrop⟩ := ih fun frame hframe => h frame (List.mem_cons_of_mem _ hframe)
    have htop := h top List.mem_cons_self
    by_cases hle : indent ≤ top.indent
    · have hle' : f indent ≤ (top.rewidth f).indent := htop.mpr hle
      rw [List.map_cons, List.takeWhile_cons_of_pos (by simpa using hle'),
        List.dropWhile_cons_of_pos (by simpa using hle'),
        List.takeWhile_cons_of_pos (by simpa using hle),
        List.dropWhile_cons_of_pos (by simpa using hle), htake, hdrop, List.map_cons]
      exact ⟨rfl, rfl⟩
    · have hle' : ¬ f indent ≤ (top.rewidth f).indent := fun hle' => hle (htop.mp hle')
      rw [List.map_cons, List.takeWhile_cons_of_neg (by simpa using hle'),
        List.dropWhile_cons_of_neg (by simpa using hle'),
        List.takeWhile_cons_of_neg (by simpa using hle),
        List.dropWhile_cons_of_neg (by simpa using hle)]
      exact ⟨rfl, rfl⟩

theorem closeUntil_rewidth {o : Outline} {indent : Nat}
    (h : ∀ frame ∈ o.frames, f indent ≤ f frame.indent ↔ indent ≤ frame.indent) :
    (o.rewidth f).closeUntil (f indent) = (o.closeUntil indent).rewidth f := by
  obtain ⟨htake, hdrop⟩ := cut_rewidth h
  unfold closeUntil rewidth
  dsimp only
  rw [htake, hdrop]
  -- The closing tags go to the changed widths with their containers.
  refine congrArg (Outline.mk _) (Array.toList_inj.mp ?_)
  rw [Array.toList_appendList, Array.toList_map, Array.toList_map, Array.toList_appendList,
    List.map_append, List.map_map, List.map_map]
  rfl

end Outline

/-! ### Documents in lockstep -/

namespace Renderer

variable {r : Renderer} {line line' : Line}

/-- What a line writes follows from its content. -/
theorem fragment_of_content (h : line'.content = line.content) :
    r.fragment line' = r.fragment line := by
  rw [fragment, fragment, h]

theorem kind_of_content (h : line'.content = line.content) : line'.kind = line.kind := by
  rw [Line.kind, Line.kind, h]

theorem opens_of_content (h : line'.content = line.content) : r.opens line' = r.opens line := by
  rw [opens, opens, kind_of_content h, fragment_of_content h]

theorem markup_of_content (h : line'.content = line.content) : r.markup line' = r.markup line := by
  rw [markup, markup, kind_of_content h, fragment_of_content h, h]

/-- **The step.** On the widths where the change is increasing, a line at its changed width does to
an outline at changed widths what the line does to the outline. -/
theorem step_rewidth {widths : Set Nat} (hf : StrictMonoOn f widths) {o : Outline}
    (ho : ∀ frame ∈ o.frames, frame.indent ∈ widths) (hline : line.indent ∈ widths)
    (h : line.Rewidthed f line') :
    r.step (o.rewidth f) line' = (r.step o line).rewidth f := by
  have hclose : (o.rewidth f).closeUntil line'.indent =
      (o.closeUntil line.indent).rewidth f := by
    rw [h.indent]
    exact closeUntil_rewidth fun frame hframe => hf.le_iff_le hline (ho frame hframe)
  have hframe : r.frame line' = (r.frame line).rewidth f := by
    rw [frame, fragment_of_content h.content, h.indent]
    rfl
  unfold step
  rw [hclose, hframe, opens_of_content h.content, markup_of_content h.content]
  split
  · simp [Outline.rewidth, openFrame, Frame.rewidth, PlacedLine.rewidth]
  · simp [Outline.rewidth, addText, PlacedLine.rewidth, h.indent]

/-- **The run.** Lines at changed widths leave the outline at changed widths. -/
theorem foldl_step_rewidth {widths : Set Nat} (hf : StrictMonoOn f widths)
    {lines lines' : List Line} (h : List.Forall₂ (Line.Rewidthed f) lines lines')
    (hlines : ∀ line ∈ lines, line.indent ∈ widths) {o : Outline}
    (ho : ∀ frame ∈ o.frames, frame.indent ∈ widths) :
    lines'.foldl r.step (o.rewidth f) = (lines.foldl r.step o).rewidth f := by
  induction h generalizing o with
  | nil => rfl
  | @cons line line' _ _ hline _ ih =>
    have hindent := hlines line List.mem_cons_self
    -- The containers that are open after the line were opened by it or before it.
    have hstep : ∀ frame ∈ (r.step o line).frames, frame.indent ∈ widths := by
      intro frame hframe
      rcases mem_frames_step hframe with hframe | ⟨-, rfl⟩
      · exact ho frame hframe
      · exact hindent
    rw [List.foldl_cons, List.foldl_cons, step_rewidth hf ho hindent hline]
    exact ih (fun l hl => hlines l (List.mem_cons_of_mem _ hl)) hstep

/-- Lines at changed widths write the same markup at changed widths. -/
theorem map_line_history_rewidth {lines lines' : List Line}
    (hf : StrictMonoOn f {width | width ∈ lines.map Line.indent})
    (h : List.Forall₂ (Line.Rewidthed f) lines lines') :
    (r.history lines').map Entry.line =
      ((r.history lines).map Entry.line).map (PlacedLine.rewidth f) := by
  have hrun : lines'.foldl r.step (Outline.rewidth f {}) =
      (lines.foldl r.step {}).rewidth f :=
    foldl_step_rewidth hf h (fun _ hline => List.mem_map_of_mem hline)
      fun _ hframe => absurd hframe List.not_mem_nil
  rw [map_line_history_eq_finish, map_line_history_eq_finish, ← finish_rewidth, ← hrun,
    rewidth_empty]

/-- **Only the order of widths matters.** Let the significant lines of two sources have the same
contents, and the widths of the second come from those of the first by a function that is strictly
increasing on them. Laid out by depth, the two renderings have the same outcome: the same output,
or the same refusal. At the widths of the source, if both succeed, the outputs have the same lines
behind spaces, as many in the second as the function makes of those in the first. -/
theorem render_rewidth (r : Renderer) (f : Nat → Nat) (source source' : Text)
    (hcontent : (significant source').map Line.content = (significant source).map Line.content)
    (hindent : (significant source').map Line.indent =
      (significant source).map fun line => f line.indent)
    (hf : StrictMonoOn f {width | width ∈ (significant source).map Line.indent}) :
    (r.options.formatOutput = true →
      (r.render source').map Rendered.output = (r.render source).map Rendered.output) ∧
    (r.options.formatOutput = false → ∀ rendered rendered',
      r.render source = .ok rendered → r.render source' = .ok rendered' →
        ∃ ps : List PlacedLine, (∀ p ∈ ps, Readable p.text) ∧
          rendered.output = Text.unlines (ps.map PlacedLine.shown) ∧
          rendered'.output = Text.unlines (ps.map fun p => PlacedLine.shown ⟨f p.indent, p.text⟩) ∧
          (ps ≠ [] → Text.lines rendered.output = ps.map PlacedLine.shown ∧
            Text.lines rendered'.output =
              ps.map fun p => PlacedLine.shown ⟨f p.indent, p.text⟩)) := by
  have hlines := map_line_history_rewidth (r := r) hf (forall₂_rewidthed hcontent hindent)
  constructor
  · intro hformat
    -- The counter reads texts only, and these are the same.
    have harranged : r.arrangement source' = r.arrangement source := by
      rw [arrangement, arranged_of_format hformat, hlines, List.map_map, arrangement,
        arranged_of_format hformat]
      rfl
    rw [render_eq_arrangement, render_eq_arrangement, harranged]
    cases firstTooWide ((r.arrangement source).map PlacedLine.indent) with
    | none => rfl
    | some width => rfl
  · intro hraw rendered rendered' hrender hrender'
    have harranged : r.arrangement source' =
        (r.arrangement source).map (PlacedLine.rewidth f) := by
      rw [arrangement, arranged_of_raw hraw, hlines, arrangement, arranged_of_raw hraw]
    have hshown : (r.arrangement source').map PlacedLine.shown =
        (r.arrangement source).map fun p => PlacedLine.shown ⟨f p.indent, p.text⟩ := by
      rw [harranged, List.map_map]
      rfl
    refine ⟨r.arrangement source, readable_arrangement source, ?_, ?_, fun hne => ⟨?_, ?_⟩⟩
    · rw [(render_eq_ok_iff_arrangement.mp hrender).2]
    · rw [(render_eq_ok_iff_arrangement.mp hrender').2, hshown]
    · exact lines_output hrender hne
    · rw [← hshown]
      refine lines_output hrender' ?_
      rw [harranged]
      exact fun hnil => hne (List.map_eq_nil_iff.mp hnil)

/-- Widths divided by three, where all of them are multiples of three. The second source is
indented by tabs and spaces, and a comment stands between its lines. -/
theorem render_rewidth_thirds :
    (significant "%a\n\t\t%i\n / -\n   b\n c\nd".toList).map Line.content =
      (significant "%a\n      %i\n         b\n   c\nd".toList).map Line.content ∧
    (significant "%a\n\t\t%i\n / -\n   b\n c\nd".toList).map Line.indent =
      (significant "%a\n      %i\n         b\n   c\nd".toList).map (fun line => line.indent / 3) ∧
    StrictMonoOn (· / 3)
      {width | width ∈ (significant "%a\n      %i\n         b\n   c\nd".toList).map Line.indent} ∧
    ((Renderer.mk {} .html).render "%a\n\t\t%i\n / -\n   b\n c\nd".toList).map Rendered.output =
      ((Renderer.mk {} .html).render "%a\n      %i\n         b\n   c\nd".toList).map
        Rendered.output ∧
    (Renderer.mk { formatOutput := false } .html).render
        "%a\n      %i\n         b\n   c\nd".toList =
      .ok ⟨"<a>\n      <i>\n         b\n      </i>\n   c\n</a>\nd".toList, []⟩ ∧
    (Renderer.mk { formatOutput := false } .html).render
        "%a\n\t\t%i\n / -\n   b\n c\nd".toList =
      .ok ⟨"<a>\n  <i>\n   b\n  </i>\n c\n</a>\nd".toList, []⟩ ∧
    ∃ ps : List PlacedLine,
      "<a>\n      <i>\n         b\n      </i>\n   c\n</a>\nd".toList =
        Text.unlines (ps.map PlacedLine.shown) ∧
      "<a>\n  <i>\n   b\n  </i>\n c\n</a>\nd".toList =
        Text.unlines (ps.map fun p => PlacedLine.shown ⟨p.indent / 3, p.text⟩) := by
  have hcontent : (significant "%a\n\t\t%i\n / -\n   b\n c\nd".toList).map Line.content =
      (significant "%a\n      %i\n         b\n   c\nd".toList).map Line.content := by
    cbv
  have hindent : (significant "%a\n\t\t%i\n / -\n   b\n c\nd".toList).map Line.indent =
      (significant "%a\n      %i\n         b\n   c\nd".toList).map fun line => line.indent / 3 := by
    cbv
  have hf : StrictMonoOn (· / 3)
      {width | width ∈
        (significant "%a\n      %i\n         b\n   c\nd".toList).map Line.indent} := by
    have hwidths : (significant "%a\n      %i\n         b\n   c\nd".toList).map Line.indent =
        [0, 6, 9, 3, 0] := by
      cbv
    have hall : ∀ a ∈ [0, 6, 9, 3, 0], ∀ b ∈ [0, 6, 9, 3, 0], a < b → a / 3 < b / 3 := by
      decide
    rw [hwidths]
    intro a ha b hb
    exact hall a ha b hb
  have hfirst : (Renderer.mk { formatOutput := false } .html).render
      "%a\n      %i\n         b\n   c\nd".toList =
        .ok ⟨"<a>\n      <i>\n         b\n      </i>\n   c\n</a>\nd".toList, []⟩ := by
    cbv
  have hsecond : (Renderer.mk { formatOutput := false } .html).render
      "%a\n\t\t%i\n / -\n   b\n c\nd".toList =
        .ok ⟨"<a>\n  <i>\n   b\n  </i>\n c\n</a>\nd".toList, []⟩ := by
    cbv
  obtain ⟨ps, -, hps, hps', -⟩ :=
    (render_rewidth _ _ _ _ hcontent hindent hf).2 rfl _ _ hfirst hsecond
  exact ⟨hcontent, hindent, hf, (render_rewidth _ _ _ _ hcontent hindent hf).1 rfl, hfirst, hsecond,
    ps, hps, hps'⟩

end Renderer

end Offside
