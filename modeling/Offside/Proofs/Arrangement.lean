import Offside.Proofs.Forest
import Offside.Proofs.Reread

/-!
# The arrangement of an output

However a document is laid out, its output is made of lines of markup at certain widths. Layout
only chooses the widths: those of the source, or those that its counter gives. The lines with the
widths so chosen are the *arrangement* of the document (`Renderer.arrangement`), and a rendering
is a matter of the arrangement alone (`Renderer.render_eq_arrangement`). If one of the widths is
above the limit, the first such width is the refusal. If none is, the lines are shown behind their
spaces and put together.

So two renderings are compared by comparing their arrangements. Which of them fail can be told
from the widths (`firstTooWide`), and the lines of the outputs can be told from the lines of the
arrangements, since these are cut where they were joined (`Renderer.lines_output`).
-/

namespace Offside

open Outline

/-! ### Widths that are refused -/

/-- The first of some widths that is above the limit. -/
def firstTooWide (widths : List Nat) : Option Nat :=
  widths.find? (widthLimit < ·)

theorem firstTooWide_append_eq_none_iff {us vs : List Nat} :
    firstTooWide (us ++ vs) = none ↔ firstTooWide us = none ∧ firstTooWide vs = none := by
  rw [firstTooWide, List.find?_append, Option.or_eq_none_iff]
  rfl

/-- **What padding comes to.** The first width above the limit refuses all lines; else each is
shown as it is placed. -/
theorem mapM_padded (ps : List PlacedLine) :
    ps.mapM PlacedLine.padded =
      (firstTooWide (ps.map PlacedLine.indent)).elim (.ok (ps.map PlacedLine.shown))
        fun width => .error ⟨width⟩ := by
  induction ps with
  | nil => rfl
  | cons p ps ih =>
    rw [List.mapM_cons, List.map_cons, firstTooWide]
    by_cases hwide : widthLimit < p.indent
    · have hpad : p.padded = .error ⟨p.indent⟩ := (pad_eq_error_iff _ _).mpr hwide
      rw [hpad, List.find?_cons_of_pos (by simpa using hwide)]
      rfl
    · have hpad : p.padded = .ok p.shown := (pad_eq_ok_iff _ _ _).mpr ⟨Nat.le_of_not_lt hwide, rfl⟩
      rw [hpad, List.find?_cons_of_neg (by simpa using hwide), ih, firstTooWide]
      -- Whether the other lines go through decides for all.
      cases (ps.map PlacedLine.indent).find? (widthLimit < ·) with
      | none => rfl
      | some width => rfl

/-! ### Widths by depth -/

namespace Layout

variable {unit : Nat} {table : VoidTable}

/-- The lines of a layout with the widths that its counter gives them. -/
def arrange (unit : Nat) (table : VoidTable) (depth : Nat) : List Text → List PlacedLine
  | [] => []
  | line :: rest =>
    ⟨(shape table line).depthAt depth * unit, line⟩ ::
      arrange unit table ((shape table line).depthAfter depth) rest

/-- The counter of a layout after some lines. -/
def depthAfter (table : VoidTable) (depth : Nat) (lines : List Text) : Nat :=
  lines.foldl (fun depth line => (shape table line).depthAfter depth) depth

theorem map_text_arrange (depth : Nat) (lines : List Text) :
    (arrange unit table depth lines).map PlacedLine.text = lines := by
  induction lines generalizing depth with
  | nil => rfl
  | cons line rest ih => rw [arrange, List.map_cons, ih]

/-- Lines in two parts are arranged part by part, the second from where the counter stands after
the first. -/
theorem arrange_append (depth : Nat) (xs ys : List Text) :
    arrange unit table depth (xs ++ ys) =
      arrange unit table depth xs ++ arrange unit table (depthAfter table depth xs) ys := by
  induction xs generalizing depth with
  | nil => rfl
  | cons line rest ih =>
    rw [List.cons_append, arrange, ih, arrange, List.cons_append]
    rfl

/-- Layout by depth pads the lines to the widths that its counter gives them. -/
theorem placeFrom_eq_mapM {lines : List Text} (h : ∀ line ∈ lines, Readable line) (depth : Nat) :
    placeFrom unit table depth lines = (arrange unit table depth lines).mapM PlacedLine.padded := by
  induction lines generalizing depth with
  | nil => rfl
  | cons line rest ih =>
    have hline := h line List.mem_cons_self
    have htrim : Text.trim line = line := hline.trimmed.trim_eq
    have hne : Text.trim line ≠ [] := htrim.symm ▸ hline.ne_nil
    rw [placeFrom_cons hne, htrim, ih fun l hl => h l (List.mem_cons_of_mem _ hl), arrange,
      List.mapM_cons]
    rfl

end Layout

/-! ### Documents -/

namespace Renderer

/-- Placed lines at the widths that they come out with. -/
def arranged (r : Renderer) (ps : List PlacedLine) : List PlacedLine :=
  if r.options.formatOutput then
    Layout.arrange r.options.indentUnit r.table 0 (ps.map PlacedLine.text)
  else ps

/-- **The arrangement of a document:** the lines of its output, each with its width. -/
def arrangement (r : Renderer) (source : Text) : List PlacedLine :=
  r.arranged ((r.history (significant source)).map Entry.line)

variable {r : Renderer}

theorem map_line_history_eq_finish (lines : List Line) :
    (r.history lines).map Entry.line = (lines.foldl r.step {}).finish :=
  Except.ok.inj ((placedLines_eq_history lines).symm.trans (placedLines_eq lines))

theorem map_line_history_eq_preorder (lines : List Line) :
    (r.history lines).map Entry.line = r.preorder lines := by
  rw [map_line_history_eq_finish, finish_foldl_step]
  rfl

theorem arranged_of_format (h : r.options.formatOutput = true) (ps : List PlacedLine) :
    r.arranged ps =
      Layout.arrange r.options.indentUnit r.table 0 (ps.map PlacedLine.text) :=
  if_pos h

theorem arranged_of_raw (h : r.options.formatOutput = false) (ps : List PlacedLine) :
    r.arranged ps = ps := by
  rw [arranged, h, if_neg Bool.false_ne_true]

/-- Arranging changes widths and nothing else. -/
theorem map_text_arranged (ps : List PlacedLine) :
    (r.arranged ps).map PlacedLine.text = ps.map PlacedLine.text := by
  unfold arranged
  split
  · exact Layout.map_text_arrange 0 _
  · rfl

theorem readable_arrangement (source : Text) :
    ∀ p ∈ r.arrangement source, Readable p.text := by
  intro p hp
  have htext := List.mem_map_of_mem (f := PlacedLine.text) hp
  rw [arrangement, map_text_arranged] at htext
  obtain ⟨q, hq, hpq⟩ := List.mem_map.mp htext
  rw [← hpq]
  exact readable_history source q hq

/-- **What layout comes to.** -/
theorem layOut_eq {ps : List PlacedLine} (h : ∀ p ∈ ps, Readable p.text) :
    r.layOut ps =
      (firstTooWide ((r.arranged ps).map PlacedLine.indent)).elim
        (.ok (Text.unlines ((r.arranged ps).map PlacedLine.shown)))
        fun width => .error ⟨width⟩ := by
  have hpadded : r.layOut ps =
      (do let padded ← (r.arranged ps).mapM PlacedLine.padded
          return Text.unlines padded) := by
    have htexts : ∀ line ∈ ps.map PlacedLine.text, Readable line := List.forall_mem_map.mpr h
    unfold layOut arranged
    split
    · rw [Layout.formatLines, Layout.placeFrom_eq_mapM htexts]
    · rfl
  rw [hpadded, mapM_padded]
  cases firstTooWide ((r.arranged ps).map PlacedLine.indent) with
  | none => rfl
  | some width => rfl

/-- **A rendering is a matter of its arrangement:** refused at the first width above the limit, or
else the lines of the arrangement put together. -/
theorem render_eq_arrangement (r : Renderer) (source : Text) :
    r.render source =
      (firstTooWide ((r.arrangement source).map PlacedLine.indent)).elim
        (.ok ⟨Text.unlines ((r.arrangement source).map PlacedLine.shown),
          (significant source).flatMap r.diagnose⟩)
        fun width => .error (.tooWide ⟨width⟩) := by
  rw [render_eq, layOut_eq (readable_history source), ← arrangement]
  cases firstTooWide ((r.arrangement source).map PlacedLine.indent) with
  | none => rfl
  | some width => rfl

theorem render_eq_ok_iff_arrangement {source : Text} {rendered : Rendered} :
    r.render source = .ok rendered ↔
      firstTooWide ((r.arrangement source).map PlacedLine.indent) = none ∧
        rendered = ⟨Text.unlines ((r.arrangement source).map PlacedLine.shown),
          (significant source).flatMap r.diagnose⟩ := by
  rw [render_eq_arrangement]
  cases firstTooWide ((r.arrangement source).map PlacedLine.indent) with
  | none =>
    constructor
    · intro h
      exact ⟨rfl, (Except.ok.inj h).symm⟩
    · rintro ⟨-, rfl⟩
      rfl
  | some width =>
    constructor
    · intro h
      cases h
    · rintro ⟨h, -⟩
      cases h

theorem render_eq_error_iff_arrangement {source : Text} {error : RenderError} :
    r.render source = .error error ↔
      ∃ width, firstTooWide ((r.arrangement source).map PlacedLine.indent) = some width ∧
        error = .tooWide ⟨width⟩ := by
  rw [render_eq_arrangement]
  cases firstTooWide ((r.arrangement source).map PlacedLine.indent) with
  | none =>
    constructor
    · intro h
      cases h
    · rintro ⟨width, h, -⟩
      cases h
  | some width =>
    constructor
    · intro h
      exact ⟨width, rfl, (Except.error.inj h).symm⟩
    · rintro ⟨width', h, rfl⟩
      obtain rfl := Option.some.inj h
      rfl

/-- The lines of an output are the shown lines of its arrangement, unless there are none. -/
theorem lines_output {source : Text} {rendered : Rendered} (h : r.render source = .ok rendered)
    (hne : r.arrangement source ≠ []) :
    Text.lines rendered.output = (r.arrangement source).map PlacedLine.shown := by
  rw [(render_eq_ok_iff_arrangement.mp h).2]
  exact lines_shown (readable_arrangement source) hne

end Renderer

end Offside
