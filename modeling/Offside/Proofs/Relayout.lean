import Offside.Proofs.Reread

/-!
# Layout as a normal form

Layout knows a text by the trims of its lines and by nothing else (`Layout.trims`). Texts with the
same trims have the same layout, or are refused alike (`Layout.format_congr`). And what comes out of
a layout has the trims of what went in: a line is given back behind spaces, which is nothing to a
trim, and no line can fall apart or run into the next, since no trim holds a line feed
(`Layout.trims_of_format`).

The two facts together make layout a normaliser (**`Layout.format_normalises`**). A text that has
been laid out may be laid out again with any unit, and what comes of it, the refusals included, is
what would have come of the first text. The spaces of the first pass are never seen by the second,
so neither pass has a say in whether the other goes through.
-/

namespace Offside

/-- The spaces before a text are nothing to a trim. -/
theorem trim_of_indented {t line : Text} (h : Indented t line) : Text.trim line = Text.trim t := by
  obtain ⟨width, rfl⟩ := h
  exact Text.trim_append_of_blank (isBlank_of_mem_replicate width) t

namespace Layout

variable {unit : Nat} {table : VoidTable} {text other formatted : Text}

/-- The trims of the lines of a text, which is all that layout sees of it. -/
def trims (text : Text) : List Text :=
  (Text.lines text).map Text.trim

theorem format_congr (h : trims text = trims other) (unit : Nat) :
    format unit table text = format unit table other := by
  show formatLines unit table (Text.lines text) = formatLines unit table (Text.lines other)
  rw [formatLines, formatLines, placeFrom_congr h]

/-- Neither a trim nor the spaces before it hold a line feed. -/
theorem feed_notMem_of_indented {line placed : Text} (hline : line ∈ Text.lines text)
    (h : Indented (Text.trim line) placed) : '\n' ∉ placed := by
  obtain ⟨width, rfl⟩ := h
  intro hmem
  rcases List.mem_append.mp hmem with hspace | htrim
  · exact absurd (List.eq_of_mem_replicate hspace) (by decide)
  · exact (Text.of_mem_splitOn hline).1 (Text.trim_subset line htrim)

/-- **What a layout gives back.** Its lines are the trims of the lines that went in, each behind
some spaces, in the same order and no more of them. -/
theorem indented_of_format (h : format unit table text = .ok formatted) :
    List.Forall₂ (fun line line' => Indented (Text.trim line) line')
      (Text.lines text) (Text.lines formatted) := by
  obtain ⟨placed, hplaced, hout⟩ := bind_eq_ok_iff.mp h
  have hindented := indented_of_placeFrom hplaced
  -- There is a line, because a text always has one.
  have hne : placed ≠ [] := by
    rintro rfl
    exact List.splitOn_ne_nil '\n' text (List.forall₂_nil_right_iff.mp hindented)
  -- The lines are cut where they were joined, because none of them holds a line feed.
  have hfeed : ∀ line ∈ placed, '\n' ∉ line := by
    intro line hline
    obtain ⟨i, hi, rfl⟩ := List.getElem_of_mem hline
    have hi' : i < (Text.lines text).length := hindented.length_eq ▸ hi
    exact feed_notMem_of_indented (List.getElem_mem hi') (hindented.get hi' hi)
  have hlines : Text.lines formatted = placed := by
    rw [← Except.ok.inj hout]
    exact Text.lines_unlines hne hfeed
  rw [hlines]
  exact hindented

/-- A trim that was put behind spaces and is trimmed again is that trim. -/
theorem map_trim_of_indented {lines placed : List Text}
    (h : List.Forall₂ (fun line line' => Indented (Text.trim line) line') lines placed) :
    placed.map Text.trim = lines.map Text.trim := by
  induction h with
  | nil => rfl
  | @cons line line' _ _ hfirst _ ih =>
    rw [List.map_cons, List.map_cons, trim_of_indented hfirst, Text.trim_trim, ih]

/-- **Layout keeps the trims.** -/
theorem trims_of_format (h : format unit table text = .ok formatted) :
    trims formatted = trims text :=
  map_trim_of_indented (indented_of_format h)

/-- **Layout is a normaliser.** If a text can be laid out, the result has as many lines with the
same trims, and laid out again with any unit it has the outcome that the text itself has with that
unit, be it a layout or a refusal. With the unit of the first time it comes out as it is; and so
does every text whose lines have the same trims, whatever blanks stood around them. -/
theorem format_normalises (table : VoidTable) (text formatted : Text) (unit : Nat)
    (h : format unit table text = .ok formatted) :
    (Text.lines formatted).length = (Text.lines text).length ∧
      (Text.lines formatted).map Text.trim = (Text.lines text).map Text.trim ∧
      (∀ unit', format unit' table formatted = format unit' table text) ∧
      format unit table formatted = .ok formatted ∧
      ∀ other, (Text.lines other).map Text.trim = (Text.lines text).map Text.trim →
        format unit table other = .ok formatted := by
  have htrims : trims formatted = trims text := trims_of_format h
  refine ⟨(indented_of_format h).length_eq.symm, htrims, format_congr htrims, ?_, ?_⟩
  · rw [format_congr htrims, h]
  · intro other hother
    rw [format_congr hother, h]

/-- Closing tags that close nothing, a no-break space, a lone carriage return, a line of blanks and
a line that only looks like a start tag. With one unit the text is laid out and stays so; with a
larger one both the text and its layout are refused, at the width of the second start tag. -/
theorem format_normalises_refused :
    format 2 .html "</b>\n\t<a>\u00a0\n \r\n<i>\n<3 \rx\r".toList =
        .ok "</b>\n<a>\n\n  <i>\n    <3 \rx".toList ∧
      format 2 .html "</b>\n<a>\n\n  <i>\n    <3 \rx".toList =
        .ok "</b>\n<a>\n\n  <i>\n    <3 \rx".toList ∧
      format 70000 .html "</b>\n\t<a>\u00a0\n \r\n<i>\n<3 \rx\r".toList = .error ⟨70000⟩ ∧
      format 70000 .html "</b>\n<a>\n\n  <i>\n    <3 \rx".toList = .error ⟨70000⟩ := by
  have hfirst : format 2 .html "</b>\n\t<a>\u00a0\n \r\n<i>\n<3 \rx\r".toList =
      .ok "</b>\n<a>\n\n  <i>\n    <3 \rx".toList := by
    cbv
  have hrefused : format 70000 .html "</b>\n\t<a>\u00a0\n \r\n<i>\n<3 \rx\r".toList =
      .error ⟨70000⟩ := by
    cbv
  obtain ⟨-, -, hagain, hsame, -⟩ := format_normalises .html _ _ 2 hfirst
  exact ⟨hfirst, hsame, hrefused, (hagain 70000).trans hrefused⟩

end Layout

end Offside
