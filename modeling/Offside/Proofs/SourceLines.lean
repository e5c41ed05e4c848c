import Offside.Proofs.Widths

/-!
# Lines up to their ends

A source is turned into numbered lines in three steps: newlines are unified, the text is cut at
line feeds, and the lines without meaning are left out. What is rendered depends on less. The
blanks at the end of a line are never looked at, and among them is the carriage return that may
stand before a line feed. So a source can be read as its *bare* lines, cut at line feeds alone and
without the blanks at their ends (`Renderer.bareLines`):

* **Unifying newlines only touches line ends** (`Text.map_trimEnd_lines_unifyNewlines`). The
  induction goes over the characters; the flag of the step says whether a line feed comes next.
* **A bare line is as good as the line** (`Line.content_bare`, `Line.indent_bare`,
  `Renderer.diagnose_bare`): its content is the same, and so is its indentation, unless nothing
  but blanks is there.
* **Numbers only show in diagnostics** (`Renderer.map_line_history_renumber`,
  `Renderer.flatMap_diagnose_renumber`).

An edit of a source that changes its bare lines in their numbers at most therefore leaves its
output alone.
-/

namespace Offside

open Outline

/-! ### The ends of lines -/

namespace Text

variable {t : Text}

theorem trimEnd_append (a b : Text) :
    trimEnd (a ++ b) = if trimEnd b = [] then trimEnd a else a ++ trimEnd b := by
  unfold trimEnd dropTail
  rw [List.reverse_append, List.dropWhile_append]
  by_cases h : b.reverse.dropWhile isBlank = []
  · simp [h]
  · simp [h]

theorem trimEnd_of_blank (h : ∀ c ∈ t, isBlank c = true) : trimEnd t = [] := by
  have hnone : t.reverse.dropWhile isBlank = [] :=
    List.dropWhile_eq_nil_iff.mpr fun c hc => h c (List.mem_reverse.mp hc)
  rw [trimEnd, dropTail, hnone, List.reverse_nil]

theorem trimEnd_append_of_blank (a : Text) {b : Text} (h : ∀ c ∈ b, isBlank c = true) :
    trimEnd (a ++ b) = trimEnd a := by
  rw [trimEnd_append, if_pos (trimEnd_of_blank h)]

@[simp] theorem trimEnd_trimEnd (t : Text) : trimEnd (trimEnd t) = trimEnd t :=
  List.rdropWhile_idempotent isBlank t

theorem trimEnd_cons_trimEnd (c : Char) (t : Text) :
    trimEnd (c :: trimEnd t) = trimEnd (c :: t) := by
  have h := trimEnd_append [c] (trimEnd t)
  rw [trimEnd_trimEnd, ← trimEnd_append] at h
  exact h

theorem isBlank_of_mem_leading : ∀ c ∈ leading t, isBlank c = true :=
  fun _ hc => List.mem_takeWhile_imp hc

/-- What is left of a text when its end is trimmed: nothing, or its indentation and its trim. -/
theorem trimEnd_eq (t : Text) :
    trimEnd t = if trim t = [] then [] else leading t ++ trim t := by
  have h := trimEnd_append (leading t) (trimStart t)
  rw [leading_append_trimStart, trimEnd_of_blank isBlank_of_mem_leading] at h
  exact h

@[simp] theorem trim_trimEnd (t : Text) : trim (trimEnd t) = trim t := by
  rw [trimEnd_eq]
  split
  · rename_i hnil
    rw [hnil]
    rfl
  · rw [trim_append_of_blank isBlank_of_mem_leading, trim_trim]

theorem leading_trimEnd (h : trim t ≠ []) : leading (trimEnd t) = leading t := by
  rw [trimEnd_eq, if_neg h]
  exact takeWhile_run isBlank_of_mem_leading (trimmed_trim t).head

theorem lines_cons_feed (t : Text) : lines ('\n' :: t) = [] :: lines t := by
  rw [lines, lines, List.splitOn_eq_splitOnP, List.splitOn_eq_splitOnP,
    List.splitOnP_cons_eq_if_modifyHead, if_pos (by decide)]

theorem lines_cons {c : Char} (h : c ≠ '\n') (t : Text) :
    lines (c :: t) = (lines t).modifyHead (c :: ·) := by
  rw [lines, lines, List.splitOn_eq_splitOnP, List.splitOn_eq_splitOnP,
    List.splitOnP_cons_eq_if_modifyHead, if_neg (by simpa using h)]

theorem lines_append (a b : Text) : lines (a ++ '\n' :: b) = lines a ++ lines b :=
  List.splitOn_append_cons_self a b

/-- The flag of the unifying step says whether the text begins with a line feed. -/
theorem foldr_unifyStep_flag (t : Text) :
    (t.foldr unifyStep (false, [])).1 = true ↔ t.head? = some '\n' := by
  cases t with
  | nil => decide
  | cons c rest =>
    rw [List.foldr_cons, unifyStep]
    split
    · rename_i h
      simp [h.1]
    · simp

/-- A character in front of the first line comes before all that trimming leaves of it. -/
theorem map_trimEnd_modifyHead (c : Char) (ls : List Text) :
    (ls.modifyHead (c :: ·)).map trimEnd =
      (ls.map trimEnd).modifyHead fun line => trimEnd (c :: line) := by
  cases ls with
  | nil => rfl
  | cons first rest =>
    rw [List.modifyHead_cons, List.map_cons, List.map_cons, List.modifyHead_cons,
      trimEnd_cons_trimEnd]

/-- **Unifying newlines only touches line ends.** -/
theorem map_trimEnd_lines_unifyNewlines (t : Text) :
    (lines (unifyNewlines t)).map trimEnd = (lines t).map trimEnd := by
  unfold unifyNewlines
  induction t with
  | nil => rfl
  | cons c rest ih =>
    rw [List.foldr_cons, unifyStep]
    split
    · -- The carriage return that is left out was a line end of its own.
      rename_i h
      obtain ⟨rest', rfl⟩ := List.head?_eq_some_iff.mp ((foldr_unifyStep_flag rest).mp h.2)
      have hend : trimEnd ['\r'] = [] := by decide
      rw [ih, h.1, lines_cons (c := '\r') (by decide), lines_cons_feed, List.modifyHead_cons,
        List.map_cons, List.map_cons, hend]
      rfl
    · by_cases hc : c = '\n'
      · rw [hc, lines_cons_feed, lines_cons_feed, List.map_cons, List.map_cons, ih]
      · rw [lines_cons hc, lines_cons hc, map_trimEnd_modifyHead, map_trimEnd_modifyHead, ih]

end Text

/-! ### Bare lines -/

namespace Line

/-- The line without the blanks at its end. -/
def bare (line : Line) : Line :=
  ⟨line.number, Text.trimEnd line.raw⟩

/-- The line at another place. -/
def renumber (place : Nat → Nat) (line : Line) : Line :=
  ⟨place line.number, line.raw⟩

/-- Lines numbered from a start. -/
def numbered (start : Nat) (raws : List Text) : List Line :=
  (raws.zipIdx start).map fun (raw, number) => ⟨number, raw⟩

theorem numbered_cons (start : Nat) (raw : Text) (raws : List Text) :
    numbered start (raw :: raws) = ⟨start, raw⟩ :: numbered (start + 1) raws := rfl

theorem numbered_append (start : Nat) (us vs : List Text) :
    numbered start (us ++ vs) = numbered start us ++ numbered (start + us.length) vs := by
  rw [numbered, List.zipIdx_append, List.map_append]
  rfl

theorem map_bare_numbered (start : Nat) (raws : List Text) :
    (numbered start raws).map bare = numbered start (raws.map Text.trimEnd) := by
  induction raws generalizing start with
  | nil => rfl
  | cons raw raws ih => rw [numbered_cons, List.map_cons, ih, List.map_cons, numbered_cons, bare]

theorem numbered_add (start shift : Nat) (raws : List Text) :
    numbered (start + shift) raws = (numbered start raws).map (renumber (· + shift)) := by
  induction raws generalizing start with
  | nil => rfl
  | cons raw raws ih =>
    have hnext : start + shift + 1 = start + 1 + shift := by omega
    rw [numbered_cons, hnext, ih, numbered_cons, List.map_cons, renumber]

@[simp] theorem content_bare (line : Line) : line.bare.content = line.content :=
  Text.trim_trimEnd line.raw

@[simp] theorem isSignificant_bare (line : Line) :
    line.bare.isSignificant = line.isSignificant := by
  rw [isSignificant, isSignificant, kind, kind, content_bare]

theorem leading_bare {line : Line} (h : line.content ≠ []) :
    Text.leading line.bare.raw = Text.leading line.raw :=
  Text.leading_trimEnd h

theorem indent_bare {line : Line} (h : line.content ≠ []) : line.bare.indent = line.indent := by
  rw [indent, leading_bare h, indent]

end Line

/-- The diagnostic with its line at another place. -/
def Diagnostic.renumber (place : Nat → Nat) (d : Diagnostic) : Diagnostic :=
  { d with line := d.line.map place }

namespace Renderer

variable {r : Renderer}

/-- The significant ones of some lines, without the blanks at their ends. -/
def bareOf (lines : List Text) : List Line :=
  (Line.numbered 0 (lines.map Text.trimEnd)).filter Line.isSignificant

/-- **The bare lines of a source:** its significant lines, cut at line feeds alone and without the
blanks at their ends. -/
def bareLines (source : Text) : List Line :=
  bareOf (Text.lines source)

theorem bareOf_append (us vs : List Text) :
    bareOf (us ++ vs) = bareOf us ++ (bareOf vs).map (Line.renumber (· + us.length)) := by
  have hrenumber : Line.isSignificant ∘ Line.renumber (· + us.length) = Line.isSignificant := rfl
  rw [bareOf, List.map_append, Line.numbered_append, List.filter_append, List.length_map,
    Line.numbered_add, List.filter_map, hrenumber]
  rfl

theorem map_bare_significant (source : Text) :
    (significant source).map Line.bare = bareLines source := by
  have hsignificant : Line.isSignificant ∘ Line.bare = Line.isSignificant :=
    funext Line.isSignificant_bare
  rw [bareLines, bareOf, ← Text.map_trimEnd_lines_unifyNewlines, ← Line.map_bare_numbered,
    List.filter_map, hsignificant]
  rfl

/-! ### What a rendering reads of a line -/

theorem diagnose_bare {line : Line} (h : line.content ≠ []) :
    r.diagnose line.bare = r.diagnose line := by
  unfold diagnose Line.mixesIndent Line.kind
  rw [Line.leading_bare h, Line.content_bare]
  rfl

theorem diagnose_renumber (line : Line) {place place' : Nat → Nat}
    (h : place' (line.number + 1) = place line.number + 1) :
    r.diagnose (line.renumber place) = (r.diagnose line).map (Diagnostic.renumber place') := by
  -- The number of the line is read in the diagnostics and nowhere else.
  have hissue : ∀ issue : Tag.Issue,
      Diagnostic.ofIssue (place' (line.number + 1)) issue =
        (Diagnostic.ofIssue (line.number + 1) issue).renumber place' := by
    intro issue
    cases issue <;> rfl
  have hmixes : (line.renumber place).mixesIndent = line.mixesIndent := rfl
  have hkind : (line.renumber place).kind = line.kind := rfl
  have hcontent : (line.renumber place).content = line.content := rfl
  unfold diagnose
  dsimp only
  rw [hmixes, hkind, hcontent, List.map_append, Line.renumber, ← h]
  congr 1
  · split <;> rfl
  · cases line.kind with
    | text =>
      dsimp only
      split <;> rfl
    | tag =>
      dsimp only
      rw [List.map_map]
      exact List.map_congr_left fun issue _ => hissue issue
    | blank => rfl
    | comment => rfl

theorem flatMap_diagnose_renumber {lines : List Line} {place place' : Nat → Nat}
    (h : ∀ line ∈ lines, place' (line.number + 1) = place line.number + 1) :
    (lines.map (Line.renumber place)).flatMap r.diagnose =
      (lines.flatMap r.diagnose).map (Diagnostic.renumber place') := by
  rw [List.flatMap_map, List.map_flatMap]
  exact List.flatMap_congr fun line hline => diagnose_renumber line (h line hline)

/-- Lines with the same contents and widths write the same markup. -/
theorem map_line_history_congr {lines lines' : List Line}
    (hcontent : lines'.map Line.content = lines.map Line.content)
    (hindent : lines'.map Line.indent = lines.map Line.indent) :
    (r.history lines').map Entry.line = (r.history lines).map Entry.line := by
  have h := map_line_history_rewidth (r := r) (f := id) (strictMono_id.strictMonoOn _)
    (forall₂_rewidthed hcontent hindent)
  rwa [PlacedLine.map_rewidth_id] at h

theorem map_line_history_renumber (place : Nat → Nat) (lines : List Line) :
    (r.history (lines.map (Line.renumber place))).map Entry.line =
      (r.history lines).map Entry.line := by
  refine map_line_history_congr ?_ ?_
  · rw [List.map_map]
    rfl
  · rw [List.map_map]
    rfl

/-- **The markup of a source is that of its bare lines,** … -/
theorem map_line_history_bareLines (source : Text) :
    (r.history (bareLines source)).map Entry.line =
      (r.history (significant source)).map Entry.line := by
  rw [← map_bare_significant]
  refine map_line_history_congr ?_ ?_
  · rw [List.map_map]
    exact List.map_congr_left fun line _ => line.content_bare
  · rw [List.map_map]
    exact List.map_congr_left fun line hline => Line.indent_bare (content_ne_nil hline)

/-- … and so are its diagnostics. -/
theorem flatMap_diagnose_bareLines (source : Text) :
    (bareLines source).flatMap r.diagnose = (significant source).flatMap r.diagnose := by
  rw [← map_bare_significant, List.flatMap_map]
  exact List.flatMap_congr fun line hline => diagnose_bare (content_ne_nil hline)

end Renderer

end Offside
