import Offside.Cli.Command
import Offside.Proofs.Depth
import Offside.Proofs.Reread
import Offside.Proofs.Session

/-!
# What makes a rendering fail

A rendering is refused for the width of a padding and for nothing else. Its nesting never fails,
since each line first closes what it cannot stand in, and reading a tag line always gives a tag.
Nor does that change if the tag is cut up by byte offsets: that no such cut falls outside the text
or within a character is shown in `Offside.Proofs.Offsets` and `Offside.Proofs.SelectorScan`.

* At the widths of the source, the paddings are the indentations of the significant lines: those
  of closing tags are no others, since a container is closed at the width that it was opened at
  (`Renderer.exists_wide_history_iff`). So the rendering fails exactly when one of these lines is
  too wide.
* Laid out by depth, a line is padded by at most one unit for each line before it that layout took
  for a start tag. A plain line may look like one, but no source line writes more than one such
  line, and closing tags are none (`Renderer.openings_history_le`). So as many units as there are
  significant lines are always enough.

A check of files reports what was remarked on them. As nesting errors never come up, no report is
one of an error, and a check that comes to its end finds nothing amiss (`Cli.says_check`).
-/

namespace Offside

open Outline

/-! ### Failing computations -/

theorem bind_eq_error_iff {ε α β : Type} {x : Except ε α} {f : α → Except ε β} {e : ε} :
    (x >>= f) = .error e ↔ x = .error e ∨ ∃ a, x = .ok a ∧ f a = .error e := by
  cases x with
  | error e' =>
    constructor
    · intro h
      rw [Except.error.inj h]
      exact Or.inl rfl
    · rintro (h | ⟨a, ha, -⟩)
      · rw [Except.error.inj h]
        rfl
      · exact nomatch ha
  | ok a =>
    constructor
    · intro h
      exact Or.inr ⟨a, rfl, h⟩
    · rintro (h | ⟨a', ha, h⟩)
      · exact nomatch h
      · obtain rfl := Except.ok.inj ha
        exact h

/-- A computation over a list fails exactly when it does for some member. -/
theorem exists_mapM_eq_error_iff {ε α β : Type} {f : α → Except ε β} {xs : List α} :
    (∃ e, xs.mapM f = .error e) ↔ ∃ x ∈ xs, ∃ e, f x = .error e := by
  induction xs with
  | nil =>
    constructor
    · rintro ⟨e, he⟩
      exact nomatch he
    · rintro ⟨x, hx, -⟩
      exact absurd hx List.not_mem_nil
  | cons x xs ih =>
    rw [List.exists_mem_cons_iff, ← ih, List.mapM_cons]
    constructor
    · rintro ⟨e, he⟩
      rcases bind_eq_error_iff.mp he with he | ⟨y, -, he⟩
      · exact Or.inl ⟨e, he⟩
      · rcases bind_eq_error_iff.mp he with he | ⟨ys, -, he⟩
        · exact Or.inr ⟨e, he⟩
        · exact nomatch he
    · intro h
      cases hx : f x with
      | error e => exact ⟨e, rfl⟩
      | ok y =>
        obtain ⟨e, he⟩ : ∃ e, xs.mapM f = .error e := by
          rcases h with ⟨e, he⟩ | h
          · rw [hx] at he
            exact nomatch he
          · exact h
        refine ⟨e, bind_eq_error_iff.mpr (Or.inr ⟨y, rfl, ?_⟩)⟩
        exact bind_eq_error_iff.mpr (Or.inl he)

theorem exists_padded_eq_error_iff {p : PlacedLine} :
    (∃ e, p.padded = .error e) ↔ widthLimit < p.indent := by
  constructor
  · rintro ⟨e, he⟩
    by_contra hle
    have hok := (pad_eq_ok_iff p.indent p.text _).mpr ⟨Nat.le_of_not_lt hle, rfl⟩
    exact nomatch he.symm.trans hok
  · intro hlt
    exact ⟨_, (pad_eq_error_iff p.indent p.text).mpr hlt⟩

/-! ### The depth of a layout -/

namespace Layout

variable {unit : Nat} {table : VoidTable}

/-- The number of lines that layout takes for the start tags of containers. -/
def openings (table : VoidTable) (lines : List Text) : Nat :=
  lines.countP fun line => shape table (Text.trim line) = .opening

theorem openings_cons (line : Text) (rest : List Text) :
    openings table (line :: rest) =
      openings table rest + if shape table (Text.trim line) = .opening then 1 else 0 := by
  simp [openings, List.countP_cons]

/-- **Enough room.** No line is placed deeper than the depth at the start and all lines that layout
takes for start tags come to, so if that is not too wide, nothing is refused. -/
theorem exists_placeFrom {depth : Nat} {lines : List Text}
    (h : (depth + openings table lines) * unit ≤ widthLimit) :
    ∃ placed, placeFrom unit table depth lines = .ok placed := by
  induction lines generalizing depth with
  | nil => exact ⟨[], rfl⟩
  | cons line rest ih =>
    rw [openings_cons] at h
    by_cases hblank : Text.trim line = []
    · have hroom : (depth + openings table rest) * unit ≤ widthLimit :=
        (Nat.mul_le_mul_right unit (by omega)).trans h
      obtain ⟨placed, hplaced⟩ := ih hroom
      refine ⟨[] :: placed, ?_⟩
      rw [placeFrom_cons_blank hblank, hplaced]
      rfl
    · generalize hs : shape table (Text.trim line) = s at h
      have hat := s.depthAt_le depth
      have hafter := s.depthAfter_le depth
      -- The line itself stands within the bound, and so does all that comes after it.
      have hfirst : s.depthAt depth * unit ≤ widthLimit :=
        (Nat.mul_le_mul_right unit (by omega)).trans h
      have hroom : (s.depthAfter depth + openings table rest) * unit ≤ widthLimit :=
        (Nat.mul_le_mul_right unit (by omega)).trans h
      obtain ⟨placed, hplaced⟩ := ih hroom
      refine ⟨(List.replicate (s.depthAt depth * unit) ' ' ++ Text.trim line) :: placed, ?_⟩
      rw [placeFrom_cons hblank, hs, (pad_eq_ok_iff _ _ _).mpr ⟨hfirst, rfl⟩, hplaced]
      rfl

end Layout

/-! ### Documents -/

namespace Renderer

variable {r : Renderer}

theorem Writes.indent {line : Line} {e : Entry} (h : r.Writes line e) :
    e.line.indent = line.indent := by
  cases h with
  | opens _ _ => rfl
  | stands _ _ => rfl
  | closes _ _ => rfl

/-- Every line writes its markup at its own width. -/
theorem exists_mem_history {lines : List Line} {line : Line} (h : line ∈ lines) (o : Outline) :
    ∃ e ∈ o.history (r.calls lines), e.line = ⟨line.indent, r.markup line⟩ := by
  induction lines generalizing o with
  | nil => exact absurd h List.not_mem_nil
  | cons first rest ih =>
    rw [history_calls_cons]
    rcases List.mem_cons.mp h with rfl | h
    · exact ⟨r.entry o line, List.mem_append_right _ List.mem_cons_self, rfl⟩
    · obtain ⟨e, he, hline⟩ := ih h (r.step o first)
      exact ⟨e, List.mem_append_right _ (List.mem_cons_of_mem _ he), hline⟩

/-- **The widths of a document are those of its lines,** and no closing tag brings another. -/
theorem exists_wide_history_iff {lines : List Line} {width : Nat} :
    (∃ p ∈ (r.history lines).map Entry.line, width < p.indent) ↔
      ∃ line ∈ lines, width < line.indent := by
  constructor
  · rintro ⟨p, hp, hwide⟩
    obtain ⟨e, he, rfl⟩ := List.mem_map.mp hp
    obtain ⟨line, hline, hwrites⟩ := exists_writes he
    exact ⟨line, hline, hwrites.indent ▸ hwide⟩
  · rintro ⟨line, hline, hwide⟩
    obtain ⟨e, he, hplaced⟩ := exists_mem_history hline {}
    refine ⟨e.line, List.mem_map_of_mem he, ?_⟩
    rw [hplaced]
    exact hwide

theorem openings_closings (indent : Nat) (frames : List Frame) :
    Layout.openings r.table ((closings indent frames).map (·.line.text)) = 0 := by
  refine List.countP_eq_zero.mpr ?_
  intro text htext
  obtain ⟨e, he, rfl⟩ := List.mem_map.mp htext
  obtain ⟨f, -, around, rfl⟩ := exists_of_mem_closings he
  -- Layout reads a closing tag for what it is.
  show ¬ decide (Layout.shape r.table (Text.trim (Fragment.closingTag f.name)) = .opening) = true
  rw [(Fragment.trimmed_closingTag f.name).trim_eq, Layout.shape_closingTag]
  decide

/-- Whatever its lines look like, a document has at most as many start tags for layout as it has
lines. -/
theorem openings_history_le (o : Outline) (lines : List Line) :
    Layout.openings r.table ((o.history (r.calls lines)).map (·.line.text)) ≤ lines.length := by
  induction lines generalizing o with
  | nil => exact Nat.le_of_eq (openings_closings 0 o.frames)
  | cons line rest ih =>
    have hrest := ih (r.step o line)
    have hclosings := openings_closings (r := r) line.indent o.frames
    rw [history_calls_cons, List.map_append, List.map_cons, Layout.openings, List.countP_append,
      ← Layout.openings, ← Layout.openings, Layout.openings_cons, hclosings, List.length_cons]
    split <;> omega

/-- Nesting is never at fault. -/
theorem render_ne_nesting (source : Text) (e : NestingError) :
    r.render source ≠ .error (.nesting e) := by
  rw [render_eq]
  cases r.layOut ((r.history (significant source)).map Entry.line) with
  | error _ => exact fun h => (nomatch h)
  | ok _ => exact fun h => (nomatch h)

theorem render_eq_tooWide_iff {source : Text} {e : TooWide} :
    r.render source = .error (.tooWide e) ↔
      r.layOut ((r.history (significant source)).map Entry.line) = .error e := by
  rw [render_eq]
  cases r.layOut ((r.history (significant source)).map Entry.line) with
  | error e' =>
    constructor
    · intro h
      rw [RenderError.tooWide.inj (Except.error.inj h)]
    · intro h
      rw [Except.error.inj h]
      rfl
  | ok _ => exact ⟨fun h => (nomatch h), fun h => (nomatch h)⟩

/-- At the widths of the source, exactly a line that is too wide fails the rendering. -/
theorem exists_tooWide_iff (hformat : r.options.formatOutput = false) (source : Text) :
    (∃ e, r.render source = .error (.tooWide e)) ↔
      ∃ line ∈ significant source, widthLimit < line.indent := by
  have hraw : ∀ e, r.layOut ((r.history (significant source)).map Entry.line) = .error e ↔
      ((r.history (significant source)).map Entry.line).mapM PlacedLine.padded = .error e := by
    intro e
    rw [layOut, hformat, if_neg Bool.false_ne_true, bind_eq_error_iff]
    constructor
    · rintro (h | ⟨placed, -, hpure⟩)
      · exact h
      · cases hpure
    · exact Or.inl
  simp only [render_eq_tooWide_iff, hraw, exists_mapM_eq_error_iff, exists_padded_eq_error_iff]
  exact exists_wide_history_iff

/-- Laid out by depth, a rendering has room enough if there is a unit for every line. -/
theorem exists_render_of_length (hformat : r.options.formatOutput = true) (source : Text)
    (h : (significant source).length * r.options.indentUnit ≤ widthLimit) :
    ∃ rendered, r.render source = .ok rendered := by
  have hroom : (0 + Layout.openings r.table
      ((r.history (significant source)).map (·.line.text))) * r.options.indentUnit ≤
        widthLimit := by
    rw [Nat.zero_add]
    exact (Nat.mul_le_mul_right _ (openings_history_le {} (significant source))).trans h
  obtain ⟨placed, hplaced⟩ := Layout.exists_placeFrom hroom
  refine ⟨⟨Text.unlines placed, (significant source).flatMap r.diagnose⟩, ?_⟩
  refine render_eq_ok_iff.mpr ⟨?_, rfl⟩
  rw [layOut, if_pos hformat, List.map_map]
  exact bind_eq_ok_iff.mpr ⟨placed, hplaced, rfl⟩

/-- What is remarked on a line is a warning or an information. -/
theorem severity_of_mem_diagnose {line : Line} {d : Diagnostic} (h : d ∈ r.diagnose line) :
    d.severity ≠ .error := by
  rcases List.mem_append.mp h with h | h
  · split at h
    · rw [List.mem_singleton.mp h]
      exact fun hsev => (nomatch hsev)
    · exact absurd h List.not_mem_nil
  · split at h
    · split at h
      · rw [List.mem_singleton.mp h]
        exact fun hsev => (nomatch hsev)
      · exact absurd h List.not_mem_nil
    · obtain ⟨issue, -, rfl⟩ := List.mem_map.mp h
      cases issue with
      | unclosedBlock => exact fun hsev => (nomatch hsev)
      | bareEntry _ => exact fun hsev => (nomatch hsev)
      | contentOnVoid _ => exact fun hsev => (nomatch hsev)
    · exact absurd h List.not_mem_nil

end Renderer

/-! ### Checks -/

namespace Cli

/-- A line that passes a check: that a file is in order, or a finding that is no error. -/
def Passing (coloured : Bool) (line : Text) : Prop :=
  ∃ file,
    line = file ++ ": ".toList ++ Ansi.paint coloured { colour := .green } "OK".toList ∨
    ∃ d : Diagnostic, d.severity ≠ .error ∧ line = finding coloured file d

theorem says_findings {P : Text → Prop} (options : Options) (text : Text) :
    Action.Says P (fun found => ∀ d ∈ found, d.severity ≠ .error) (findings options text) := by
  unfold findings
  cases hrender : (Renderer.mk options .html).render text with
  | ok rendered =>
    refine Action.Says.pure ?_
    intro d hd
    rw [(Renderer.render_eq_ok_iff.mp hrender).2] at hd
    obtain ⟨line, -, hmem⟩ := List.mem_flatMap.mp hd
    exact Renderer.severity_of_mem_diagnose hmem
  | error e =>
    cases e with
    | nesting e => exact absurd hrender (Renderer.render_ne_nesting text e)
    | tooWide e => exact Action.Says.throw .refused

theorem says_checkFile (coloured : Bool) (options : Options) (file : Text) :
    Action.Says (Passing coloured) (· = false) (checkFile coloured options file) := by
  refine (Action.Says.readSource file).bind ?_
  intro text _
  refine (says_findings options text).bind ?_
  intro found hfound
  have hstatus : Action.Says (Passing coloured) (· = false)
      (pure (found.any (·.severity = .error))) := by
    refine Action.Says.pure (List.any_eq_false.mpr ?_)
    intro d hd
    simpa using hfound d hd
  split
  · exact (Action.Says.say ⟨file, Or.inl rfl⟩).bind fun _ _ => hstatus
  · have hlines : Action.Says (Passing coloured) (fun _ => True)
        (found.forM fun d => Action.say (finding coloured file d)) := by
      refine Action.Says.forM ?_
      intro d hd
      exact Action.Says.say ⟨file, Or.inr ⟨d, hfound d hd, rfl⟩⟩
    exact hlines.bind fun _ _ => hstatus

/-- **A check finds no errors.** Whatever it writes passes, and its status is that of success. -/
theorem says_check (coloured : Bool) (options : Options) (files : List Text) :
    Action.Says (Passing coloured) (· = 0) (check coloured options files) := by
  refine (Action.Says.mapM fun file _ => says_checkFile coloured options file).bind ?_
  intro failed hfailed
  refine Action.Says.pure (if_neg ?_)
  rw [Bool.not_eq_true]
  exact List.any_eq_false.mpr fun b hb => by simp [hfailed b hb]

end Cli

namespace Renderer

/-- A single shown line is as wide as it was placed. -/
theorem exists_wide_shown_iff {p : PlacedLine} (h : Readable p.text) {width : Nat} :
    (∃ line ∈ significant p.shown, width < line.indent) ↔ width < p.indent := by
  have hsource : Text.unlines ([p].map PlacedLine.shown) = p.shown :=
    List.intercalate_singleton
  have hplaced := placed_significant_shown (List.forall_mem_singleton.mpr h)
  rw [hsource] at hplaced
  -- There is one line, and it is placed as `p` is.
  obtain ⟨line, hline, rfl⟩ := List.map_eq_singleton_iff.mp hplaced
  rw [hline, List.exists_mem_cons_iff]
  simp

/-- **Only width fails a rendering.** No source has a nesting error, so no check reports one. At the
widths of the source, a rendering is refused exactly when some significant line is indented by more
than 65535; laid out by depth, it is never refused if 65535 has room for as many units as there are
significant lines.

Here tags are read by their characters, where every part is there to be taken. Made by byte offsets,
the same cuts could go wrong, and it takes a proof for each reader that they do not: see
`Block.findByOffset_eq` for the block of a tag, and `Selector.takeFirstByOffset_eq` and
`Selector.runs_takeAll` for its identifier and its classes. -/
theorem render_fails_only_for_width (r : Renderer) (source : Text) :
    (∀ e, r.render source ≠ .error (.nesting e)) ∧
    (∀ coloured options files,
      Cli.Action.Says (Cli.Passing coloured) (· = 0) (Cli.check coloured options files)) ∧
    (r.options.formatOutput = false →
      ((∃ e, r.render source = .error (.tooWide e)) ↔
        ∃ line ∈ significant source, 65535 < line.indent)) ∧
    (r.options.formatOutput = true →
      (significant source).length * r.options.indentUnit ≤ 65535 →
        ∃ rendered, r.render source = .ok rendered) :=
  ⟨render_ne_nesting source, Cli.says_check,
    fun hformat => exists_tooWide_iff hformat source,
    fun hformat => exists_render_of_length hformat source⟩

/-- Three lines with a third of the room for each go through; a line at the limit goes through and
one beyond it does not. -/
theorem render_fails_only_for_width_limits :
    ((significant "%a\n <b>\n  c".toList).length * 21845 ≤ 65535 ∧
      ∃ rendered, (Renderer.mk { indentUnit := 21845 } .html).render "%a\n <b>\n  c".toList =
        .ok rendered) ∧
    (∃ e, (Renderer.mk { formatOutput := false } .html).render
      (PlacedLine.shown ⟨65536, ['a']⟩) = .error (.tooWide e)) ∧
    ¬ ∃ e, (Renderer.mk { formatOutput := false } .html).render
      (PlacedLine.shown ⟨65535, ['a']⟩) = .error (.tooWide e) := by
  have hroom : (significant "%a\n <b>\n  c".toList).length * 21845 ≤ 65535 := by
    have hlength : (significant "%a\n <b>\n  c".toList).length = 3 := by cbv
    rw [hlength]
  have hreadable : Readable ['a'] :=
    ⟨(Text.trim_eq_self_iff ['a']).mp (by decide), by decide, by decide⟩
  refine ⟨⟨hroom, (render_fails_only_for_width _ _).2.2.2 rfl hroom⟩, ?_, ?_⟩
  · refine ((render_fails_only_for_width _ _).2.2.1 rfl).mpr ?_
    exact (exists_wide_shown_iff hreadable).mpr (by decide)
  · intro h
    have hwide := ((render_fails_only_for_width _ _).2.2.1 rfl).mp h
    exact absurd ((exists_wide_shown_iff hreadable).mp hwide) (by decide)

end Renderer

end Offside
