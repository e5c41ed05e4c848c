import Offside.Proofs.SourceLines

/-!
# Lines without meaning

Blank lines and comments can be put anywhere in a source, and the blanks at the end of any line can
be others. A *revision* (`Revision`) goes through the lines of a source from the first to the last
and either keeps a line, perhaps with other blanks at its end, or adds one without meaning. Line
feeds can become carriage returns with line feeds in this way, and one carriage return before a
line feed can become two, since a carriage return is a blank at the end of its line.

A revised source is rendered as the source is (`Renderer.render_revised`): the output is the same or
the failure is, and the diagnostics are the same ones in the same order. Only their line numbers
change, to where the revision has moved the lines (`Revision.place`).

The induction goes over the revision. Its invariant is that the bare lines after it are those before
it, at the places that it moves them to (`Renderer.bareOf_revised`).
-/

namespace Offside

open Outline

/-! ### Noise -/

/-- A line without meaning: it has only blanks, or the first character that is not blank is a
slash. -/
def Text.IsNoise (line : Text) : Prop :=
  (∀ c ∈ line, isBlank c = true) ∨ (trimStart line).head? = some '/'

instance (line : Text) : Decidable line.IsNoise :=
  @instDecidableOr _ _ (List.decidableBAll _ line) inferInstance

theorem Text.trim_of_blank {t : Text} (h : ∀ c ∈ t, isBlank c = true) : trim t = [] := by
  have hstart : trimStart t = [] := List.dropWhile_eq_nil_iff.mpr h
  rw [trim, hstart]
  rfl

theorem Text.head?_trim {t : Text} {c : Char} (hc : isBlank c = false)
    (h : (trimStart t).head? = some c) : (trim t).head? = some c := by
  obtain ⟨rest, hrest⟩ := List.head?_eq_some_iff.mp h
  have hkept := trimEnd_append [c] rest
  have halone : trimEnd [c] = [c] := trimEnd_eq_self (by simpa using hc)
  rw [List.singleton_append, halone] at hkept
  rw [trim, hrest, hkept]
  split <;> rfl

theorem Line.isSignificant_of_isNoise {line : Line} (h : Text.IsNoise line.raw) :
    line.isSignificant = false := by
  rcases h with hblank | hslash
  · have hcontent : line.content = [] := Text.trim_of_blank hblank
    rw [isSignificant, kind, hcontent]
    rfl
  · have hhead : line.content.head? = some '/' := Text.head?_trim (by decide) hslash
    obtain ⟨rest, hrest⟩ := List.head?_eq_some_iff.mp hhead
    rw [isSignificant, kind, hrest]
    rfl

/-! ### Revisions -/

/-- **A revision** of the lines of a source that keeps all that has a meaning. -/
inductive Revision : List Text → List Text → Type where
  | done : Revision [] []
  /-- A line is kept, up to the blanks at its end. -/
  | keep (line line' : Text) {lines lines' : List Text} (hfeed : '\n' ∉ line')
      (hend : Text.trimEnd line' = Text.trimEnd line) (rest : Revision lines lines') :
      Revision (line :: lines) (line' :: lines')
  /-- A line without meaning is added. -/
  | add (noise : Text) {lines lines' : List Text} (hfeed : '\n' ∉ noise)
      (hnoise : Text.IsNoise noise) (rest : Revision lines lines') :
      Revision lines (noise :: lines')

namespace Revision

variable {lines lines' : List Text}

/-- Blanks can be put behind a line. -/
def extend (line blanks : Text) (hline : '\n' ∉ line) (hblanks : '\n' ∉ blanks)
    (hblank : ∀ c ∈ blanks, isBlank c = true) (rest : Revision lines lines') :
    Revision (line :: lines) ((line ++ blanks) :: lines') :=
  .keep line (line ++ blanks) (fun h => (List.mem_append.mp h).elim hline hblanks)
    (Text.trimEnd_append_of_blank line hblank) rest

/-- Where a line has come to stand, both places counted from zero. -/
def place {lines lines' : List Text} : Revision lines lines' → Nat → Nat
  | .done, n => n
  | .keep _ _ _ _ _, 0 => 0
  | .keep _ _ _ _ rest, n + 1 => rest.place n + 1
  | .add _ _ _ rest, n => rest.place n + 1

/-- Where a line has come to stand, both places counted from one as diagnostics do. -/
def lineNumber (revision : Revision lines lines') (n : Nat) : Nat :=
  revision.place (n - 1) + 1

/-- The line is found where it has come to stand. -/
theorem getElem?_place (revision : Revision lines lines') {n : Nat} {line : Text}
    (h : lines[n]? = some line) :
    ∃ line', lines'[revision.place n]? = some line' ∧ Text.trimEnd line' = Text.trimEnd line := by
  induction revision generalizing n with
  | done => cases h
  | keep _ line' _ hend _ ih =>
    cases n with
    | zero =>
      obtain rfl := Option.some.inj h
      exact ⟨line', rfl, hend⟩
    | succ n => exact ih h
  | add _ _ _ _ ih => exact ih h

theorem ne_nil (revision : Revision lines lines') (h : lines ≠ []) : lines' ≠ [] := by
  cases revision with
  | done => exact h
  | keep _ _ _ _ _ => exact List.cons_ne_nil _ _
  | add _ _ _ _ => exact List.cons_ne_nil _ _

theorem feed_notMem (revision : Revision lines lines') : ∀ line ∈ lines', '\n' ∉ line := by
  induction revision with
  | done => exact fun _ h => absurd h List.not_mem_nil
  | keep _ _ hfeed _ _ ih => exact List.forall_mem_cons.mpr ⟨hfeed, ih⟩
  | add _ hfeed _ _ ih => exact List.forall_mem_cons.mpr ⟨hfeed, ih⟩

/-- A revised source has the lines of the revision. -/
theorem lines_unlines {source : Text} (revision : Revision (Text.lines source) lines') :
    Text.lines (Text.unlines lines') = lines' :=
  Text.lines_unlines (revision.ne_nil (List.splitOn_ne_nil '\n' source)) revision.feed_notMem

end Revision

namespace Renderer

variable {r : Renderer} {lines lines' : List Text}

theorem bareOf_noise {noise : Text} (h : Text.IsNoise noise) : bareOf [noise] = [] := by
  have hnone : (Line.bare ⟨0, noise⟩).isSignificant = false := by
    rw [Line.isSignificant_bare]
    exact Line.isSignificant_of_isNoise h
  exact List.filter_cons_of_neg (ne_true_of_eq_false hnone)

/-- The first line stays where it is, if the first place does. -/
theorem map_renumber_bareOf_singleton (line : Text) {place : Nat → Nat} (h : place 0 = 0) :
    (bareOf [line]).map (Line.renumber place) = bareOf [line] := by
  have hrenumber : Line.isSignificant ∘ Line.renumber place = Line.isSignificant := rfl
  have hfirst : (Line.numbered 0 [Text.trimEnd line]).map (Line.renumber place) =
      Line.numbered 0 [Text.trimEnd line] := by
    show [(⟨place 0, Text.trimEnd line⟩ : Line)] = [⟨0, Text.trimEnd line⟩]
    rw [h]
  calc (bareOf [line]).map (Line.renumber place)
      = ((Line.numbered 0 [Text.trimEnd line]).map (Line.renumber place)).filter
          Line.isSignificant := by rw [List.filter_map, hrenumber]; rfl
    _ = bareOf [line] := by rw [hfirst]; rfl

/-- **A revision moves the bare lines** and does nothing else to them. -/
theorem bareOf_revised (revision : Revision lines lines') :
    bareOf lines' = (bareOf lines).map (Line.renumber revision.place) := by
  induction revision with
  | done => rfl
  | @keep line line' lines lines' hfeed hend rest ih =>
    -- The line itself stays in front; what follows is one line further on in both sources.
    have hfirst : bareOf [line'] = bareOf [line] := by
      rw [bareOf, bareOf, List.map_singleton, List.map_singleton, hend]
    have hstays : (Revision.keep line line' hfeed hend rest).place 0 = 0 := rfl
    calc bareOf ([line'] ++ lines')
        = bareOf [line] ++ ((bareOf lines).map (Line.renumber rest.place)).map
            (Line.renumber (· + 1)) := by rw [bareOf_append, hfirst, ih]; rfl
      _ = (bareOf ([line] ++ lines)).map
            (Line.renumber (Revision.keep line line' hfeed hend rest).place) := by
          rw [bareOf_append, List.map_append, map_renumber_bareOf_singleton line hstays,
            List.map_map, List.map_map]
          rfl
  | @add noise lines lines' hfeed hnoise rest ih =>
    -- Nothing of the added line is left, and all that follows is one line further on.
    calc bareOf ([noise] ++ lines')
        = ((bareOf lines).map (Line.renumber rest.place)).map (Line.renumber (· + 1)) := by
          rw [bareOf_append, bareOf_noise hnoise, List.nil_append, ih]; rfl
      _ = (bareOf lines).map (Line.renumber (Revision.add noise hfeed hnoise rest).place) := by
          rw [List.map_map]
          rfl

section Documents

variable {source : Text}

theorem bareLines_revised (revision : Revision (Text.lines source) lines') :
    bareLines (Text.unlines lines') = (bareLines source).map (Line.renumber revision.place) := by
  rw [bareLines, revision.lines_unlines, bareOf_revised revision, ← bareLines]

theorem arrangement_revised (revision : Revision (Text.lines source) lines') :
    r.arrangement (Text.unlines lines') = r.arrangement source := by
  rw [arrangement, ← map_line_history_bareLines, bareLines_revised revision,
    map_line_history_renumber, map_line_history_bareLines, ← arrangement]

theorem flatMap_diagnose_revised (revision : Revision (Text.lines source) lines') :
    (significant (Text.unlines lines')).flatMap r.diagnose =
      ((significant source).flatMap r.diagnose).map (Diagnostic.renumber revision.lineNumber) := by
  have hmoved : ((bareLines source).map (Line.renumber revision.place)).flatMap r.diagnose =
      ((bareLines source).flatMap r.diagnose).map (Diagnostic.renumber revision.lineNumber) :=
    flatMap_diagnose_renumber fun line _ => rfl
  rw [← flatMap_diagnose_bareLines, bareLines_revised revision, hmoved, flatMap_diagnose_bareLines]

end Documents

/-- **Lines without meaning and blanks at line ends do not matter.** A revised source fails as the
source does, or else it has the same output and the same diagnostics in the same order, with the
line numbers that the revision gives to their lines. At the place that it gives to a line stands
that line, up to the blanks at its end. -/
theorem render_revised (r : Renderer) (source : Text) (lines' : List Text)
    (revision : Revision (Text.lines source) lines') :
    (r.render (Text.unlines lines') = (r.render source).map fun rendered =>
      { rendered with
        diagnostics := rendered.diagnostics.map (Diagnostic.renumber revision.lineNumber) }) ∧
    ∀ n line, (Text.lines source)[n]? = some line →
      ∃ line', (Text.lines (Text.unlines lines'))[revision.place n]? = some line' ∧
        Text.trimEnd line' = Text.trimEnd line := by
  refine ⟨?_, fun n line hline => revision.lines_unlines.symm ▸ revision.getElem?_place hline⟩
  rw [render_eq_arrangement, render_eq_arrangement r source, arrangement_revised revision,
    flatMap_diagnose_revised revision]
  cases firstTooWide ((r.arrangement source).map PlacedLine.indent) with
  | none => rfl
  | some width => rfl

/-- A comment and two blank lines are added around lines that end in a carriage return more or in
a wide space, and what was to be remarked on in the second line is now in the fourth. -/
theorem render_revised_returns :
    Renderer.render {} "%ul\r\n  %br x\n".toList =
      .ok ⟨"<ul>\n  <br />\n</ul>".toList, [.ofIssue 2 (.contentOnVoid "x".toList)]⟩ ∧
    Renderer.render {} "\t/ a\n%ul\r\r\n \n  %br x\u3000\n\n".toList =
      .ok ⟨"<ul>\n  <br />\n</ul>".toList, [.ofIssue 4 (.contentOnVoid "x".toList)]⟩ ∧
    (Text.lines "%ul\r\n  %br x\n".toList)[1]? = some "  %br x".toList ∧
    ∃ line', (Text.lines "\t/ a\n%ul\r\r\n \n  %br x\u3000\n\n".toList)[3]? = some line' ∧
      Text.trimEnd line' = Text.trimEnd "  %br x".toList := by
  have hsource : Renderer.render {} "%ul\r\n  %br x\n".toList =
      .ok ⟨"<ul>\n  <br />\n</ul>".toList, [.ofIssue 2 (.contentOnVoid "x".toList)]⟩ := by
    cbv
  have hsecond : (Text.lines "%ul\r\n  %br x\n".toList)[1]? = some "  %br x".toList := by
    cbv
  obtain ⟨hrevised, hplaces⟩ := render_revised {} "%ul\r\n  %br x\n".toList _ <|
    show Revision ["%ul\r".toList, "  %br x".toList, []]
      ["\t/ a".toList, "%ul\r".toList ++ ['\r'], " ".toList, "  %br x".toList ++ ['\u3000'], [],
        []] from
    .add _ (by decide) (by decide) <|
    .extend _ _ (by decide) (by decide) (List.forall_mem_singleton.mpr (by decide)) <|
    .add _ (by decide) (by decide) <|
    .extend _ _ (by decide) (by decide) (List.forall_mem_singleton.mpr (by decide)) <|
    .add _ (by decide) (by decide) <|
    .keep _ _ (by decide) rfl .done
  have hlines : Text.unlines
      ["\t/ a".toList, "%ul\r".toList ++ ['\r'], " ".toList, "  %br x".toList ++ ['\u3000'], [],
        []] = "\t/ a\n%ul\r\r\n \n  %br x\u3000\n\n".toList := by
    cbv
  rw [hlines] at hrevised hplaces
  refine ⟨hsource, hrevised.trans ?_, hsecond, hplaces 1 _ hsecond⟩
  rw [hsource]
  rfl

end Renderer

end Offside
