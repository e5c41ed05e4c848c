import Offside.Proofs.Layout

/-!
# Output read back

The output of a rendering is a text like any other. As markup it can be laid out once more, and as
a source it can be rendered once more. Neither does anything new:

* **Layout is a pass over the raw output.** Laying a document out by depth is laying out the text
  that its rendering at the widths of the source gives (`Renderer.render_formatted`).
* **An output is a fixed point.** Rendered again with the same options, it comes out as it is
  (`Renderer.render_output`).

Both rest on one fact. Lines of markup that are shown behind spaces and put together are found
again, each with its width and its text. No such line holds a line feed or ends in a carriage
return, so the lines are cut where they were joined; the spaces in front are the whole of the
indentation; and none begins with a character that would make it a tag line or a comment, so it
is read as plain text (`Readable`). An output without lines is the exception that is none: the
empty text has one line, and that line is blank.
-/

namespace Offside

open Outline

/-- A placed line behind as many spaces as its width, however many these are. -/
def PlacedLine.shown (p : PlacedLine) : Text :=
  List.replicate p.indent ' ' ++ p.text

/-- A line of markup that a reader of sources takes for plain text. -/
structure Readable (text : Text) : Prop where
  trimmed : Text.Trimmed text
  plain : Line.Kind.ofContent text = .text
  feed : '\n' ∉ text

/-! ### One line -/

theorem isBlank_of_mem_replicate (width : Nat) :
    ∀ c ∈ List.replicate width ' ', isBlank c = true := by
  intro c hc
  rw [List.eq_of_mem_replicate hc]
  decide

namespace Readable

variable {p : PlacedLine} {text : Text}

theorem ne_nil (h : Readable text) : text ≠ [] := by
  rintro rfl
  exact nomatch h.plain

/-- The indentation of a shown line is its spaces and no more. -/
theorem leading_shown (h : Readable p.text) :
    Text.leading p.shown = List.replicate p.indent ' ' :=
  Text.takeWhile_run (isBlank_of_mem_replicate p.indent) h.trimmed.head

theorem trim_shown (h : Readable p.text) : Text.trim p.shown = p.text :=
  (Text.trim_append_of_blank (isBlank_of_mem_replicate p.indent) p.text).trans h.trimmed.trim_eq

theorem feed_notMem_shown (h : Readable p.text) : '\n' ∉ p.shown := by
  intro hmem
  rcases List.mem_append.mp hmem with hmem | hmem
  · exact absurd (List.eq_of_mem_replicate hmem) (by decide)
  · exact h.feed hmem

/-- A carriage return is blank, so it ends no trimmed line. -/
theorem last_shown (h : Readable p.text) : ∀ c ∈ p.shown.getLast?, c ≠ '\r' := by
  rintro c hc rfl
  rw [PlacedLine.shown, List.getLast?_append_of_ne_nil _ h.ne_nil] at hc
  exact absurd (h.trimmed.last _ hc) (by decide)

/-- Read as a source line, a shown line has the width and the text that it was placed with. -/
theorem placed_shown (h : Readable p.text) :
    (⟨(Text.leading p.shown).length, Text.trim p.shown⟩ : PlacedLine) = p := by
  rw [h.leading_shown, h.trim_shown, List.length_replicate]

theorem kind_shown (h : Readable p.text) (number : Nat) :
    (Line.mk number p.shown).kind = .text := by
  show Line.Kind.ofContent (Text.trim p.shown) = .text
  rw [h.trim_shown, h.plain]

end Readable

/-! ### All lines -/

section Shown

variable {ps : List PlacedLine} (h : ∀ p ∈ ps, Readable p.text)

include h

theorem lines_shown (hne : ps ≠ []) :
    Text.lines (Text.unlines (ps.map PlacedLine.shown)) = ps.map PlacedLine.shown := by
  refine Text.lines_unlines (by simpa using hne) ?_
  intro l hl
  obtain ⟨p, hp, rfl⟩ := List.mem_map.mp hl
  exact (h p hp).feed_notMem_shown

theorem unifyNewlines_shown :
    Text.unifyNewlines (Text.unlines (ps.map PlacedLine.shown)) =
      Text.unlines (ps.map PlacedLine.shown) := by
  refine Text.unifyNewlines_unlines ?_
  intro l hl
  obtain ⟨p, hp, rfl⟩ := List.mem_map.mp hl
  exact ⟨(h p hp).feed_notMem_shown, (h p hp).last_shown⟩

/-- Every shown line is significant, and there are no others. -/
theorem significant_shown :
    Renderer.significant (Text.unlines (ps.map PlacedLine.shown)) =
      (ps.map PlacedLine.shown).zipIdx.map fun (raw, number) => ⟨number, raw⟩ := by
  unfold Renderer.significant Line.ofSource Line.ofText
  rw [unifyNewlines_shown h]
  by_cases hne : ps = []
  · -- The empty text has one line, which is blank and passed over.
    rw [hne]
    rfl
  · rw [lines_shown h hne]
    refine List.filter_eq_self.mpr ?_
    intro line hline
    obtain ⟨⟨raw, number⟩, hraw, rfl⟩ := List.mem_map.mp hline
    obtain ⟨p, hp, rfl⟩ := List.mem_map.mp (List.fst_mem_of_mem_zipIdx hraw)
    show Line.isSignificant ⟨number, p.shown⟩ = true
    rw [Line.isSignificant, (h p hp).kind_shown]
    rfl

theorem kind_significant_shown :
    ∀ line ∈ Renderer.significant (Text.unlines (ps.map PlacedLine.shown)), line.kind = .text := by
  rw [significant_shown h]
  intro line hline
  obtain ⟨⟨raw, number⟩, hraw, rfl⟩ := List.mem_map.mp hline
  obtain ⟨p, hp, rfl⟩ := List.mem_map.mp (List.fst_mem_of_mem_zipIdx hraw)
  exact (h p hp).kind_shown number

/-- **Shown lines are found again,** with their widths and their texts and in their order. -/
theorem placed_significant_shown :
    (Renderer.significant (Text.unlines (ps.map PlacedLine.shown))).map
      (fun line => ⟨line.indent, line.content⟩) = ps := by
  let placed (raw : Text) : PlacedLine := ⟨(Text.leading raw).length, Text.trim raw⟩
  calc (Renderer.significant (Text.unlines (ps.map PlacedLine.shown))).map
        (fun line => ⟨line.indent, line.content⟩)
      = ((ps.map PlacedLine.shown).zipIdx.map Prod.fst).map placed := by
        rw [significant_shown h, List.map_map, List.map_map]
        rfl
    _ = ps.map (placed ∘ PlacedLine.shown) := by rw [List.zipIdx_map_fst, List.map_map]
    _ = ps.map id := List.map_congr_left fun p hp => (h p hp).placed_shown
    _ = ps := List.map_id ps

end Shown

/-! ### Laying shown lines out -/

namespace Layout

variable {unit : Nat} {table : VoidTable}

/-- **Layout reads trimmed lines only.** Lines with the same trims are placed alike. -/
theorem placeFrom_congr {lines lines' : List Text}
    (h : lines.map Text.trim = lines'.map Text.trim) (depth : Nat) :
    placeFrom unit table depth lines = placeFrom unit table depth lines' := by
  induction lines generalizing lines' depth with
  | nil =>
    obtain rfl : lines' = [] := List.map_eq_nil_iff.mp h.symm
    rfl
  | cons line rest ih =>
    obtain ⟨line', rest', rfl, hline, hrest⟩ := List.map_eq_cons_iff.mp h.symm
    by_cases hblank : Text.trim line = []
    · rw [placeFrom_cons_blank hblank, placeFrom_cons_blank (hline.trans hblank),
        ih hrest.symm]
    · have hblank' : Text.trim line' ≠ [] := hline ▸ hblank
      rw [placeFrom_cons hblank, placeFrom_cons hblank', hline, ih hrest.symm]

/-- Laid out as markup, shown lines lose the spaces that they are shown behind. -/
theorem format_shown {ps : List PlacedLine} (h : ∀ p ∈ ps, Readable p.text) :
    format unit table (Text.unlines (ps.map PlacedLine.shown)) =
      formatLines unit table (ps.map PlacedLine.text) := by
  by_cases hne : ps = []
  · -- One blank line and no line are laid out as the same empty text.
    rw [hne]
    rfl
  · have htrims : (ps.map PlacedLine.shown).map Text.trim =
        (ps.map PlacedLine.text).map Text.trim := by
      rw [List.map_map, List.map_map]
      refine List.map_congr_left ?_
      intro p hp
      exact (h p hp).trim_shown.trans (h p hp).trimmed.trim_eq.symm
    rw [format, lines_shown h hne, formatLines, placeFrom_congr htrims, formatLines]

end Layout

/-! ### Documents -/

namespace Renderer

variable {r : Renderer}

/-- Every line that a document writes would be read as plain text. -/
theorem readable_of_mem_history {source : Text} {e : Entry}
    (he : e ∈ r.history (significant source)) : Readable e.line.text := by
  obtain ⟨htrimmed, -, hfeed⟩ := text_of_mem_history he
  obtain ⟨line, hline, hwrites⟩ := exists_writes he
  -- A tag begins with a bracket, and a plain line with what made it one.
  have hmarkup : Line.Kind.ofContent (r.markup line) = .text := by
    unfold markup
    by_cases htag : line.kind = .tag
    · obtain ⟨inside, hinside⟩ := Tag.exists_fragment_html r.options.voidStyle
        (Tag.read r.table line.content).tag
      rw [if_pos htag, fragment, hinside]
      rfl
    · have hsignificant := (List.mem_filter.mp hline).2
      rw [if_neg htag]
      show line.kind = .text
      cases hkind : line.kind with
      | text => rfl
      | tag => exact absurd hkind htag
      | blank =>
        rw [Line.isSignificant, hkind] at hsignificant
        exact absurd hsignificant (by decide)
      | comment =>
        rw [Line.isSignificant, hkind] at hsignificant
        exact absurd hsignificant (by decide)
  refine ⟨htrimmed, ?_, hfeed⟩
  cases hwrites with
  | opens _ _ => exact hmarkup
  | stands _ _ => exact hmarkup
  | closes _ _ => rfl

theorem readable_history (source : Text) :
    ∀ p ∈ (r.history (significant source)).map Entry.line, Readable p.text := by
  intro p hp
  obtain ⟨e, he, rfl⟩ := List.mem_map.mp hp
  exact readable_of_mem_history he

/-- Lines that open nothing are written as they come, when nothing is open. -/
theorem map_line_history {o : Outline} (ho : o.frames = []) {lines : List Line}
    (h : ∀ line ∈ lines, ¬ r.opens line = true) :
    (o.history (r.calls lines)).map Entry.line =
      lines.map fun line => ⟨line.indent, r.markup line⟩ := by
  induction lines generalizing o with
  | nil =>
    show (closings 0 o.frames).map Entry.line = []
    rw [ho]
    rfl
  | cons line rest ih =>
    have hopens := h line List.mem_cons_self
    -- The step leaves nothing open, since it closes nothing and opens nothing.
    have hstep : (r.step o line).frames = [] := by
      rw [step, if_neg hopens]
      show o.frames.dropWhile _ = []
      rw [ho, List.dropWhile_nil]
    rw [history_calls_cons, ho, closings, List.nil_append, List.map_cons,
      ih hstep fun l hl => h l (List.mem_cons_of_mem _ hl)]
    rfl

/-- **Shown lines are written as they are.** As a source they are plain lines of their widths. -/
theorem history_shown {ps : List PlacedLine} (h : ∀ p ∈ ps, Readable p.text) :
    (r.history (significant (Text.unlines (ps.map PlacedLine.shown)))).map Entry.line = ps := by
  have hplain : ∀ line ∈ significant (Text.unlines (ps.map PlacedLine.shown)),
      line.kind ≠ .tag := by
    intro line hline
    rw [kind_significant_shown h line hline]
    decide
  have hopens : ∀ line ∈ significant (Text.unlines (ps.map PlacedLine.shown)),
      ¬ r.opens line = true := by
    intro line hline hopens
    exact hplain line hline (opens_iff.mp hopens).1
  rw [history, map_line_history rfl hopens]
  refine Eq.trans (List.map_congr_left ?_) (placed_significant_shown h)
  intro line hline
  rw [markup_of_not_tag (hplain line hline)]

/-- Layout by depth puts some number of spaces in front of each line. -/
theorem exists_shown_of_indented {texts placed : List Text}
    (h : List.Forall₂ Indented texts placed) :
    ∃ qs : List PlacedLine, qs.map PlacedLine.text = texts ∧ qs.map PlacedLine.shown = placed := by
  induction h with
  | nil => exact ⟨[], rfl, rfl⟩
  | @cons text line _ _ hfirst _ ih =>
    obtain ⟨width, rfl⟩ := hfirst
    obtain ⟨qs, rfl, rfl⟩ := ih
    exact ⟨⟨width, text⟩ :: qs, rfl, rfl⟩

/-- **A layout is its own layout.** What comes out are lines with the texts that went in, and
these lines, with the widths that they came out with, are laid out in the same way. -/
theorem exists_shown_of_layOut {ps : List PlacedLine} {output : Text}
    (h : r.layOut ps = .ok output) (htrim : ∀ p ∈ ps, Text.trim p.text = p.text) :
    ∃ qs : List PlacedLine, qs.map PlacedLine.text = ps.map PlacedLine.text ∧
      output = Text.unlines (qs.map PlacedLine.shown) ∧ r.layOut qs = .ok output := by
  by_cases hformat : r.options.formatOutput = true
  · -- By depth: the widths come from the texts alone, so the new ones are of no account.
    have hlayout := h
    rw [layOut, if_pos hformat] at hlayout
    obtain ⟨placed, hplaced, hout⟩ := bind_eq_ok_iff.mp hlayout
    have htexts : List.Forall₂ Indented (ps.map PlacedLine.text) placed := by
      have hindented := Layout.indented_of_placeFrom hplaced
      rw [List.forall₂_map_left_iff] at hindented ⊢
      refine ((List.forall₂_and_left _ _).mpr ⟨htrim, hindented⟩).imp ?_
      rintro p line ⟨hp, hline⟩
      rwa [hp] at hline
    obtain ⟨qs, hqs, rfl⟩ := exists_shown_of_indented htexts
    refine ⟨qs, hqs, (Except.ok.inj hout).symm, ?_⟩
    rw [layOut, if_pos hformat, hqs, ← h, layOut, if_pos hformat]
  · -- At the widths of the source: the lines are shown as they were placed.
    have hlayout := h
    rw [layOut, if_neg hformat] at hlayout
    obtain ⟨placed, hplaced, hout⟩ := bind_eq_ok_iff.mp hlayout
    have hshown : placed = ps.map PlacedLine.shown := eq_map_of_mapM_pad hplaced
    refine ⟨ps, rfl, ?_, h⟩
    rw [← hshown]
    exact (Except.ok.inj hout).symm

/-- **Layout is a pass over the raw output.** If a source can be rendered at its own widths, then
rendering it laid out by depth comes to the same as laying out that text: the same output, or the
same refusal. -/
theorem render_formatted (options : Options) (table : VoidTable) (source : Text) (raw : Rendered)
    (h : (Renderer.mk { options with formatOutput := false } table).render source = .ok raw) :
    ((Renderer.mk { options with formatOutput := true } table).render source).map
        Rendered.output =
      (Layout.format options.indentUnit table raw.output).mapError .tooWide := by
  -- The two renderings write the same lines; only the placing differs.
  let ps := ((Renderer.mk options table).history (significant source)).map Entry.line
  have hreadable : ∀ p ∈ ps, Readable p.text := readable_history source
  have hraw : raw.output = Text.unlines (ps.map PlacedLine.shown) := by
    obtain ⟨placed, hplaced, hout⟩ := bind_eq_ok_iff.mp (render_eq_ok_iff.mp h).1
    have hshown : placed = ps.map PlacedLine.shown := eq_map_of_mapM_pad hplaced
    rw [← hshown]
    exact (Except.ok.inj hout).symm
  rw [hraw, Layout.format_shown hreadable, render_eq]
  show Except.map Rendered.output (Except.map _ (Except.mapError RenderError.tooWide
    (Layout.formatLines options.indentUnit table (ps.map PlacedLine.text)))) = _
  cases Layout.formatLines options.indentUnit table (ps.map PlacedLine.text) with
  | error e => rfl
  | ok output => rfl

/-- A line that is indented less than the one before it, a lone carriage return and a plain line
that looks like a start tag, rendered first and laid out then. -/
theorem render_formatted_dedent :
    (Renderer.mk { formatOutput := false } .html).render "%a\n   %i\n    b\rc\n  <u>\nd".toList =
        .ok ⟨"<a>\n   <i>\n    b\rc\n   </i>\n  <u>\n</a>\nd".toList, []⟩ ∧
      ((Renderer.mk {} .html).render "%a\n   %i\n    b\rc\n  <u>\nd".toList).map Rendered.output =
        (Layout.format 2 .html
          "<a>\n   <i>\n    b\rc\n   </i>\n  <u>\n</a>\nd".toList).mapError .tooWide := by
  have hraw : (Renderer.mk { formatOutput := false } .html).render
      "%a\n   %i\n    b\rc\n  <u>\nd".toList =
        .ok ⟨"<a>\n   <i>\n    b\rc\n   </i>\n  <u>\n</a>\nd".toList, []⟩ := by
    cbv
  exact ⟨hraw, render_formatted {} .html _ _ hraw⟩

/-- **An output is a fixed point.** Rendered again with the same options and table, whatever came
out of a rendering comes out once more. -/
theorem render_output (r : Renderer) (source : Text) (rendered : Rendered)
    (h : r.render source = .ok rendered) :
    ∃ again, r.render rendered.output = .ok again ∧ again.output = rendered.output := by
  have hreadable := readable_history (r := r) source
  obtain ⟨qs, htexts, houtput, hagain⟩ := exists_shown_of_layOut (render_eq_ok_iff.mp h).1
    fun p hp => (hreadable p hp).trimmed.trim_eq
  have hreadable' : ∀ q ∈ qs, Readable q.text := by
    intro q hq
    obtain ⟨p, hp, hpq⟩ := List.mem_map.mp (htexts ▸ List.mem_map_of_mem hq)
    rw [← hpq]
    exact hreadable p hp
  refine ⟨⟨rendered.output, (significant rendered.output).flatMap r.diagnose⟩, ?_, rfl⟩
  refine render_eq_ok_iff.mpr ⟨?_, rfl⟩
  rw [houtput, history_shown hreadable', ← houtput]
  exact hagain

/-- The plain line that looks like a start tag raises the depth of what comes after it, both
times. -/
theorem render_output_dedent :
    (Renderer.mk {} .html).render "%a\n   %i\n    b\rc\n  <u>\nd".toList =
        .ok ⟨"<a>\n  <i>\n    b\rc\n  </i>\n  <u>\n  </a>\n  d".toList, []⟩ ∧
      ∃ again, (Renderer.mk {} .html).render
        "<a>\n  <i>\n    b\rc\n  </i>\n  <u>\n  </a>\n  d".toList = .ok again ∧
          again.output = "<a>\n  <i>\n    b\rc\n  </i>\n  <u>\n  </a>\n  d".toList := by
  have hfirst : (Renderer.mk {} .html).render "%a\n   %i\n    b\rc\n  <u>\nd".toList =
      .ok ⟨"<a>\n  <i>\n    b\rc\n  </i>\n  <u>\n  </a>\n  d".toList, []⟩ := by
    cbv
  exact ⟨hfirst, render_output _ _ _ hfirst⟩

end Renderer

end Offside
