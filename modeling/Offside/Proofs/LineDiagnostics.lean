import Offside.Proofs.Failure
import Offside.Proofs.SourceLines

/-!
# Diagnostics line by line

What is remarked on a source is remarked on its lines one by one. The diagnostics of a source are
those of its lines, each rendered as a source of its own, put one after the other and numbered by
the places of the lines (`Renderer.diagnostics_by_line`). The lines are those between the line
feeds of the source as it stands. A carriage return before a line feed is a blank at the end of its
line and no matter for remarks.

Two things have to be seen for this.

* **A line alone can be rendered** if it can be rendered among others
  (`Renderer.exists_render_line`). At the widths of the source it is as wide alone as it is there;
  laid out by depth it stands at the margin, and so does the tag that closes it.
* **Numbers are all that the place of a line adds** (`Renderer.flatMap_diagnose_bareOf`). The
  induction goes over the lines, with the number of lines before them as a parameter.

Within one line the codes come in a fixed order (`Diagnostic.InOrder`), since the indentation is
looked at before the content and a block of attributes before what stands behind it.
-/

namespace Offside

open Outline

/-- The diagnostic as one of the line with this number. -/
def Diagnostic.atLine (number : Nat) (d : Diagnostic) : Diagnostic :=
  { d with line := some number }

/-- **The order of codes within a line.** A remark on the indentation comes first. After it there
is at most one on metadata, or what a tag line gives: that its block is never closed or that
entries of it are ignored, but not both, and at the end that content was dropped. -/
def Diagnostic.InOrder (codes : List Text) : Prop :=
  ∃ mixed rest, codes = mixed ++ rest ∧ mixed.Sublist ["W004".toList] ∧
    (rest.Sublist ["I001".toList] ∨ rest.Sublist ["W001".toList, "W002".toList] ∨
      ∃ n last, rest = List.replicate n "W003".toList ++ last ∧ last.Sublist ["W002".toList])

/-- A block is either never closed or has entries to ignore. -/
theorem Diagnostic.InOrder.not_both {codes : List Text} (h : InOrder codes) :
    ¬ ("W001".toList ∈ codes ∧ "W003".toList ∈ codes) := by
  rintro ⟨hunclosed, hbare⟩
  obtain ⟨mixed, rest, rfl, hmixed, hrest⟩ := h
  -- Neither code is the one of the indentation, so both come after it.
  have hlater : ∀ code ∈ mixed ++ rest, code ≠ "W004".toList → code ∈ rest := by
    intro code hcode hne
    rcases List.mem_append.mp hcode with hcode | hcode
    · exact absurd (List.mem_singleton.mp (hmixed.subset hcode)) hne
    · exact hcode
  have hunclosed' := hlater _ hunclosed (by decide)
  have hbare' := hlater _ hbare (by decide)
  rcases hrest with hrest | hrest | ⟨n, last, rfl, hlast⟩
  · exact absurd (hrest.subset hbare') (by decide)
  · exact absurd (hrest.subset hbare') (by decide)
  · rcases List.mem_append.mp hunclosed' with hmem | hmem
    · exact absurd (List.eq_of_mem_replicate hmem) (by decide)
    · exact absurd (hlast.subset hmem) (by decide)

/-! ### The codes of one line -/

/-- What a tag line passes over, by its codes. The block decides which of the first two kinds there
can be. -/
theorem Tag.codes_issues (table : VoidTable) (line : Text) (number : Nat) :
    ∃ codes, ((read table line).issues.map (Diagnostic.ofIssue number)).map Diagnostic.code =
        codes.map some ∧
      (codes.Sublist ["W001".toList, "W002".toList] ∨
        ∃ n last, codes = List.replicate n "W003".toList ++ last ∧
          last.Sublist ["W002".toList]) := by
  -- Content that is dropped comes last, whatever the block is.
  have hlast : ∀ (isVoid : Bool) (content : Option Text), ∃ last : List Text,
      ((if isVoid then content.toList.map Issue.contentOnVoid else []).map
        (Diagnostic.ofIssue number)).map Diagnostic.code = last.map some ∧
      last.Sublist ["W002".toList] := by
    intro isVoid content
    cases isVoid with
    | false => exact ⟨[], rfl, List.nil_sublist _⟩
    | true =>
      cases content with
      | none => exact ⟨[], rfl, List.nil_sublist _⟩
      | some text => exact ⟨["W002".toList], rfl, List.Sublist.refl _⟩
  unfold read
  dsimp only
  generalize hcontent : contentOf _ = content
  clear hcontent
  obtain ⟨last, hcodes, hsub⟩ := hlast (table.contains (splitName (Text.trim line)).1) content
  cases hblock : Block.find (splitName (Text.trim line)).2 with
  | absent =>
    refine ⟨last, ?_, Or.inl (hsub.cons _)⟩
    rw [List.map_append, List.map_append, hcodes]
    rfl
  | unclosed =>
    refine ⟨"W001".toList :: last, ?_, Or.inl (hsub.cons_cons _)⟩
    rw [List.map_append, List.map_append, hcodes]
    rfl
  | closed before inner after =>
    refine ⟨List.replicate (Attributes.rejected inner).length "W003".toList ++ last, ?_,
      Or.inr ⟨_, last, rfl, hsub⟩⟩
    have hcode : (Diagnostic.code ∘ Diagnostic.ofIssue number) ∘ Issue.bareEntry =
        fun _ => some "W003".toList := rfl
    rw [List.map_append, List.map_append, hcodes, List.map_append, if_neg (by simp), List.map_nil,
      List.nil_append, blockRejected, List.map_map, List.map_map, hcode, List.map_const',
      List.map_append, List.map_replicate]

namespace Renderer

variable {r : Renderer}

theorem codes_diagnose (line : Line) :
    ∃ codes, (r.diagnose line).map Diagnostic.code = codes.map some ∧
      Diagnostic.InOrder codes := by
  obtain ⟨mixed, hmixed, hmixed'⟩ : ∃ mixed : List Text,
      (if line.mixesIndent then [Diagnostic.mixedIndent (line.number + 1)] else []).map
        Diagnostic.code = mixed.map some ∧ mixed.Sublist ["W004".toList] := by
    split
    · exact ⟨["W004".toList], rfl, List.Sublist.refl _⟩
    · exact ⟨[], rfl, List.nil_sublist _⟩
  unfold diagnose
  dsimp only
  rw [List.map_append, hmixed]
  cases line.kind with
  | text =>
    dsimp only
    split
    · exact ⟨mixed ++ ["I001".toList], by rw [List.map_append]; rfl, mixed, _, rfl, hmixed',
        Or.inl (List.Sublist.refl _)⟩
    · exact ⟨mixed ++ [], by rw [List.map_append]; rfl, mixed, _, rfl, hmixed',
        Or.inl (List.nil_sublist _)⟩
  | tag =>
    obtain ⟨rest, hrest, horder⟩ := Tag.codes_issues r.table line.content (line.number + 1)
    exact ⟨mixed ++ rest, by rw [List.map_append, hrest], mixed, rest, rfl, hmixed',
      Or.inr horder⟩
  | blank =>
    exact ⟨mixed ++ [], by rw [List.map_append]; rfl, mixed, _, rfl, hmixed',
      Or.inl (List.nil_sublist _)⟩
  | comment =>
    exact ⟨mixed ++ [], by rw [List.map_append]; rfl, mixed, _, rfl, hmixed',
      Or.inl (List.nil_sublist _)⟩

theorem line_of_mem_diagnose {line : Line} {d : Diagnostic} (h : d ∈ r.diagnose line) :
    d.line = some (line.number + 1) := by
  rcases List.mem_append.mp h with h | h
  · split at h
    · rw [List.mem_singleton.mp h]
      rfl
    · exact absurd h List.not_mem_nil
  · split at h
    · split at h
      · rw [List.mem_singleton.mp h]
        rfl
      · exact absurd h List.not_mem_nil
    · obtain ⟨issue, -, rfl⟩ := List.mem_map.mp h
      cases issue <;> rfl
    · exact absurd h List.not_mem_nil

/-! ### Lines alone -/

/-- A text without line feeds has one bare line at most, and it is the first. -/
theorem bareOf_singleton_cases (line : Text) :
    bareOf [line] = [] ∨ bareOf [line] = [⟨0, Text.trimEnd line⟩] := by
  have hline : bareOf [line] = [(⟨0, Text.trimEnd line⟩ : Line)].filter Line.isSignificant := rfl
  rw [hline, List.filter_singleton]
  cases (Line.mk 0 (Text.trimEnd line)).isSignificant with
  | true => exact Or.inr rfl
  | false => exact Or.inl rfl

theorem bareLines_of_free {line : Text} (h : '\n' ∉ line) : bareLines line = bareOf [line] := by
  have hlines : Text.lines line = [line] := by
    have hone : Text.unlines [line] = line := List.intercalate_singleton
    rw [← hone, Text.lines_unlines (List.cons_ne_nil _ _) (List.forall_mem_singleton.mpr h), hone]
  rw [bareLines, hlines]

theorem flatMap_diagnose_alone {line : Text} (h : '\n' ∉ line) :
    (significant line).flatMap r.diagnose = (bareOf [line]).flatMap r.diagnose := by
  rw [← flatMap_diagnose_bareLines, bareLines_of_free h]

theorem codes_alone {line : Text} (h : '\n' ∉ line) :
    ∃ codes, ((significant line).flatMap r.diagnose).map Diagnostic.code = codes.map some ∧
      Diagnostic.InOrder codes := by
  rw [flatMap_diagnose_alone h]
  rcases bareOf_singleton_cases line with hnone | hone
  · rw [hnone]
    exact ⟨[], rfl, [], [], rfl, List.nil_sublist _, Or.inl (List.nil_sublist _)⟩
  · rw [hone, List.flatMap_singleton]
    exact codes_diagnose _

/-- Moved by some lines, the remarks on a first line are those of the line it has become. -/
theorem flatMap_diagnose_moved (line : Text) (before : Nat) :
    ((bareOf [line]).map (Line.renumber (· + before))).flatMap r.diagnose =
      ((bareOf [line]).flatMap r.diagnose).map (Diagnostic.atLine (before + 1)) := by
  have hmoved : ((bareOf [line]).map (Line.renumber (· + before))).flatMap r.diagnose =
      ((bareOf [line]).flatMap r.diagnose).map (Diagnostic.renumber (· + before)) :=
    flatMap_diagnose_renumber fun l _ => Nat.add_right_comm _ _ _
  rw [hmoved]
  refine List.map_congr_left ?_
  intro d hd
  obtain ⟨l, hl, hd⟩ := List.mem_flatMap.mp hd
  -- The line stands first, so its remarks have the number one.
  have hfirst : l.number = 0 := by
    rcases bareOf_singleton_cases line with hnone | hone
    · rw [hnone] at hl
      exact absurd hl List.not_mem_nil
    · rw [hone] at hl
      rw [List.mem_singleton.mp hl]
  rw [Diagnostic.renumber, line_of_mem_diagnose hd, hfirst, Diagnostic.atLine, Nat.add_comm before]
  rfl

/-- **Remarks are made line by line.** -/
theorem flatMap_diagnose_bareOf (lines : List Text) (before : Nat) :
    ((bareOf lines).map (Line.renumber (· + before))).flatMap r.diagnose =
      (lines.zipIdx (before + 1)).flatMap fun line =>
        ((bareOf [line.1]).flatMap r.diagnose).map (Diagnostic.atLine line.2) := by
  induction lines generalizing before with
  | nil => rfl
  | cons line rest ih =>
    have hmoved : Line.renumber (· + before) ∘ Line.renumber (· + [line].length) =
        Line.renumber (· + (before + 1)) := by
      funext l
      show (⟨l.number + 1 + before, l.raw⟩ : Line) = ⟨l.number + (before + 1), l.raw⟩
      rw [Nat.add_assoc, Nat.add_comm 1]
    calc ((bareOf ([line] ++ rest)).map (Line.renumber (· + before))).flatMap r.diagnose
        = ((bareOf [line]).map (Line.renumber (· + before))).flatMap r.diagnose ++
            ((bareOf rest).map (Line.renumber (· + (before + 1)))).flatMap r.diagnose := by
          rw [bareOf_append, List.map_append, List.map_map, hmoved, List.flatMap_append]
      _ = _ := by rw [flatMap_diagnose_moved, ih, List.zipIdx_cons, List.flatMap_cons]

theorem diagnostics_eq (source : Text) :
    (significant source).flatMap r.diagnose =
      ((Text.lines source).zipIdx 1).flatMap fun line =>
        ((significant line.1).flatMap r.diagnose).map (Diagnostic.atLine line.2) := by
  have hstay : (bareLines source).map (Line.renumber (· + 0)) = bareLines source := List.map_id _
  rw [← flatMap_diagnose_bareLines, ← hstay, bareLines, flatMap_diagnose_bareOf]
  refine List.flatMap_congr ?_
  intro line hline
  rw [flatMap_diagnose_alone (Text.of_mem_splitOn (List.fst_mem_of_mem_zipIdx hline)).1]

/-! ### A line alone can be rendered -/

/-- Laid out by depth, what one line writes stands at the margin. -/
theorem indent_arrange_closings {unit : Nat} (text : Text) (frames : List Frame)
    (h : frames.length ≤ 1) :
    ∀ p ∈ Layout.arrange unit r.table 0 (text :: frames.map fun f => Fragment.closingTag f.name),
      p.indent = 0 := by
  have hat := (Layout.shape r.table text).depthAt_le 0
  have hafter : (Layout.shape r.table text).depthAfter 0 ≤ 1 :=
    ((Layout.shape r.table text).depthAfter_le 0).trans (by split <;> omega)
  have hfirst : (Layout.shape r.table text).depthAt 0 * unit = 0 := by
    rw [Nat.le_zero.mp hat, Nat.zero_mul]
  cases frames with
  | nil =>
    intro p hp
    rw [List.mem_singleton.mp hp]
    exact hfirst
  | cons f rest =>
    obtain rfl : rest = [] := List.length_eq_zero_iff.mp (by simpa using h)
    intro p hp
    rcases List.mem_cons.mp hp with rfl | hp
    · exact hfirst
    · -- The counter is at most one, and the closing tag takes one away.
      rw [List.mem_singleton.mp hp]
      show ((Layout.shape r.table text).depthAfter 0 - 1) * unit = 0
      rw [Nat.sub_eq_zero_of_le hafter, Nat.zero_mul]

theorem indent_arrangement_of_free (hformat : r.options.formatOutput = true) {line : Text}
    (h : '\n' ∉ line) : ∀ p ∈ r.arrangement line, p.indent = 0 := by
  rw [arrangement, ← map_line_history_bareLines, bareLines_of_free h, arranged_of_format hformat]
  rcases bareOf_singleton_cases line with hnone | hone
  · rw [hnone]
    exact fun p hp => absurd hp List.not_mem_nil
  · -- The line writes its markup, and its closing tag if it opens a container.
    have hframes : (r.step {} ⟨0, Text.trimEnd line⟩).frames.length ≤ 1 := by
      rw [step]
      split
      · exact Nat.le_refl 1
      · exact Nat.zero_le 1
    have hall : (r.step {} ⟨0, Text.trimEnd line⟩).frames.takeWhile (0 ≤ ·.indent) =
        (r.step {} ⟨0, Text.trimEnd line⟩).frames :=
      List.takeWhile_eq_self_iff.mpr fun f _ => decide_eq_true (Nat.zero_le f.indent)
    rw [hone, history, history_calls_cons]
    show ∀ p ∈ Layout.arrange _ r.table 0
      ((r.markup ⟨0, Text.trimEnd line⟩) ::
        ((closings 0 (r.step {} ⟨0, Text.trimEnd line⟩).frames).map Entry.line).map
          PlacedLine.text), p.indent = 0
    rw [map_line_closings, hall, List.map_map]
    exact indent_arrange_closings _ _ hframes

/-- A bare line of one line is one of every source that has the line, but for its number. -/
theorem exists_bareLines_of_mem {source line : Text} (h : line ∈ Text.lines source) {l : Line}
    (hl : l ∈ bareOf [line]) : ∃ l' ∈ bareLines source, l'.raw = l.raw := by
  obtain ⟨us, vs, hsplit⟩ := List.append_of_mem h
  have hlines : Text.lines source = us ++ ([line] ++ vs) := hsplit
  refine ⟨l.renumber (· + us.length), ?_, rfl⟩
  rw [bareLines, hlines, bareOf_append, bareOf_append]
  exact List.mem_append_right _ (List.mem_map_of_mem (List.mem_append_left _ hl))

theorem exists_wide_bareLines_iff (source : Text) (width : Nat) :
    (∃ line ∈ significant source, width < line.indent) ↔
      ∃ line ∈ bareLines source, width < line.indent := by
  simp only [← map_bare_significant, List.mem_map, exists_exists_and_eq_and]
  refine exists_congr fun line => and_congr_right fun hline => ?_
  rw [Line.indent_bare (content_ne_nil hline)]

/-- **A line alone can be rendered** if a source with that line can. -/
theorem exists_render_line {source line : Text} {rendered : Rendered}
    (h : r.render source = .ok rendered) (hline : line ∈ Text.lines source) :
    ∃ part, r.render line = .ok part := by
  have hfree : '\n' ∉ line := (Text.of_mem_splitOn hline).1
  cases hformat : r.options.formatOutput with
  | true =>
    refine ⟨_, render_eq_ok_iff_arrangement.mpr ⟨?_, rfl⟩⟩
    refine List.find?_eq_none.mpr ?_
    intro width hwidth
    obtain ⟨p, hp, rfl⟩ := List.mem_map.mp hwidth
    rw [indent_arrangement_of_free hformat hfree p hp]
    decide
  | false =>
    cases halone : r.render line with
    | ok part => exact ⟨part, rfl⟩
    | error e =>
      cases e with
      | nesting e => exact absurd halone (render_ne_nesting line e)
      | tooWide e =>
        -- The line is as wide in the source as it is alone.
        obtain ⟨l, hl, hwide⟩ := (exists_wide_bareLines_iff line _).mp
          ((exists_tooWide_iff hformat line).mp ⟨e, halone⟩)
        rw [bareLines_of_free hfree] at hl
        obtain ⟨l', hl', hraw⟩ := exists_bareLines_of_mem hline hl
        have hwide' : widthLimit < l'.indent := by
          rw [Line.indent, hraw]
          exact hwide
        obtain ⟨e', he'⟩ := (exists_tooWide_iff hformat source).mpr
          ((exists_wide_bareLines_iff source _).mpr ⟨l', hl', hwide'⟩)
        rw [h] at he'
        cases he'

/-! ### All lines -/

/-- Numbers given to the members of a list in turn do not decrease. -/
theorem pairwise_flatMap_zipIdx {α β : Type} (f : α → List β) (xs : List α) (start : Nat) :
    ((xs.zipIdx start).flatMap fun p => (f p.1).map fun _ => p.2).Pairwise (· ≤ ·) := by
  have horder : (xs.zipIdx start).Pairwise fun p q => p.2 < q.2 := by
    rw [← List.pairwise_map, List.zipIdx_map_snd]
    exact List.pairwise_lt_range'
  rw [List.pairwise_flatMap]
  constructor
  · intro p _
    exact List.pairwise_map.mpr (List.pairwise_of_forall fun _ _ => Nat.le_refl p.2)
  · refine horder.imp ?_
    intro p q hlt i hi j hj
    obtain ⟨_, -, rfl⟩ := List.mem_map.mp hi
    obtain ⟨_, -, rfl⟩ := List.mem_map.mp hj
    exact Nat.le_of_lt hlt

/-- **Diagnostics are local to their lines.** If a source can be rendered, then each of its lines
can be rendered alone, and:

* the diagnostics of the source are those of the lines alone, in order, with the number of the
  line counted from one in place of theirs;
* other options for which the source can be rendered give the same diagnostics;
* line numbers never decrease;
* the codes of each line come in order, and never is a block both unclosed and read. -/
theorem diagnostics_by_line (r : Renderer) (source : Text) (rendered : Rendered)
    (h : r.render source = .ok rendered) :
    ∃ alone : List Rendered,
      List.Forall₂ (fun line part => r.render line = .ok part) (Text.lines source) alone ∧
      rendered.diagnostics = (alone.zipIdx 1).flatMap (fun part =>
        part.1.diagnostics.map (Diagnostic.atLine part.2)) ∧
      (∀ options rendered', (Renderer.mk options r.table).render source = .ok rendered' →
        rendered'.diagnostics = rendered.diagnostics) ∧
      (∃ numbers : List Nat, rendered.diagnostics.map Diagnostic.line = numbers.map some ∧
        numbers.Pairwise (· ≤ ·)) ∧
      ∀ part ∈ alone, ∃ codes : List Text, part.diagnostics.map Diagnostic.code = codes.map some ∧
        Diagnostic.InOrder codes ∧ ¬ ("W001".toList ∈ codes ∧ "W003".toList ∈ codes) := by
  let part (line : Text) : Rendered :=
    ⟨Text.unlines ((r.arrangement line).map PlacedLine.shown),
      (significant line).flatMap r.diagnose⟩
  have hpart : ∀ line ∈ Text.lines source, r.render line = .ok (part line) := by
    intro line hline
    obtain ⟨rendered', h'⟩ := exists_render_line h hline
    rw [h', (render_eq_ok_iff_arrangement.mp h').2]
  have hdiagnostics : rendered.diagnostics =
      (((Text.lines source).map part).zipIdx 1).flatMap (fun part =>
        part.1.diagnostics.map (Diagnostic.atLine part.2)) := by
    rw [(render_eq_ok_iff.mp h).2, diagnostics_eq, List.zipIdx_map, List.flatMap_map]
    rfl
  refine ⟨(Text.lines source).map part, ?_, hdiagnostics, ?_, ?_, ?_⟩
  · exact List.forall₂_map_right_iff.mpr (List.forall₂_same.mpr hpart)
  · intro options rendered' h'
    -- The table is all that the remarks on a line need.
    rw [(render_eq_ok_iff.mp h).2, (render_eq_ok_iff.mp h').2]
    rfl
  · refine ⟨_, ?_, pairwise_flatMap_zipIdx Rendered.diagnostics ((Text.lines source).map part) 1⟩
    rw [hdiagnostics, List.map_flatMap, List.map_flatMap]
    refine List.flatMap_congr fun part _ => ?_
    rw [List.map_map, List.map_map]
    rfl
  · intro rendered' hmem
    obtain ⟨line, hline, rfl⟩ := List.mem_map.mp hmem
    obtain ⟨codes, hcodes, horder⟩ := codes_alone (r := r) (Text.of_mem_splitOn hline).1
    exact ⟨codes, hcodes, horder, horder.not_both⟩

/-- Two lines with all that can be remarked on a block and on an indentation. The first ends in a
carriage return. -/
theorem diagnostics_by_line_returns :
    Renderer.render {} "%br\x7bx, a: b\x7d z\r\n\t !m".toList = .ok
      ⟨"<br a=\"b\" />\n!m".toList,
        [.ofIssue 1 (.bareEntry "x".toList), .ofIssue 1 (.contentOnVoid "z".toList),
          .mixedIndent 2, .metadata 2 "!m".toList]⟩ ∧
    ∃ alone : List Rendered,
      List.Forall₂ (fun line part => Renderer.render {} line = .ok part)
        (Text.lines "%br\x7bx, a: b\x7d z\r\n\t !m".toList) alone ∧
      [.ofIssue 1 (.bareEntry "x".toList), .ofIssue 1 (.contentOnVoid "z".toList),
          .mixedIndent 2, .metadata 2 "!m".toList] =
        (alone.zipIdx 1).flatMap (fun part =>
          part.1.diagnostics.map (Diagnostic.atLine part.2)) := by
  have hrender : Renderer.render {} "%br\x7bx, a: b\x7d z\r\n\t !m".toList = .ok
      ⟨"<br a=\"b\" />\n!m".toList,
        [.ofIssue 1 (.bareEntry "x".toList), .ofIssue 1 (.contentOnVoid "z".toList),
          .mixedIndent 2, .metadata 2 "!m".toList]⟩ := by
    cbv
  obtain ⟨alone, halone, hdiagnostics, -⟩ := diagnostics_by_line {} _ _ hrender
  exact ⟨hrender, alone, halone, hdiagnostics⟩

end Renderer

end Offside
