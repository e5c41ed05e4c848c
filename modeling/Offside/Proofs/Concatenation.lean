import Offside.Proofs.Depth
import Offside.Proofs.SourceLines

/-!
# Documents one after the other

Two documents can be put together with a line feed between them. If the second begins at the
margin, nothing of the first reaches into it: its first line closes all containers that the first
has left open, which is what the end of the first would have done. So the output is that of the
first and then that of the second, and so are the diagnostics, those of the second with the line
numbers that they now have (`Renderer.render_append`).

* **The seam.** A carriage return at the end of the first document comes to stand before a line
  feed and is dropped. As a blank at the end of a line it did not matter before either, so the
  bare lines of the whole are those of the parts (`Renderer.bareLines_append`).
* **The stack.** Closing late is closing at the end (`Renderer.unwind_of_margin`).
* **The counter.** Laid out by depth, the second document is counted on from where the first has
  left the counter. Layout need not have read the first document as it was meant. It misses the
  start tag of a container with a name like `1a`, or with a value that holds its closing tag. But
  it misses no closing tag, and takes nothing for a start tag that is none. So its counter is
  never above the number of open containers (`Layout.depthAfter_le_of_path`), and in the end it
  is at zero. A plain line that begins with a bracket could be taken for a start tag, which is why
  there must be none in the first document.
-/

namespace Offside

open Outline

/-! ### Outputs one after the other -/

/-- Two outputs one after the other, each on lines of its own. An empty output has no lines. -/
def Text.below (first second : Text) : Text :=
  if first = [] then second
  else if second = [] then first
  else first ++ '\n' :: second

theorem Text.unlines_cons {line : Text} {rest : List Text} (h : rest ≠ []) :
    unlines (line :: rest) = line ++ '\n' :: unlines rest := by
  obtain ⟨next, others, rfl⟩ := List.exists_cons_of_ne_nil h
  rw [unlines, List.intercalate_cons_cons, List.append_assoc, List.singleton_append, ← unlines]

theorem Text.unlines_ne_nil {ls : List Text} (hne : ls ≠ []) (h : ∀ l ∈ ls, l ≠ []) :
    unlines ls ≠ [] := by
  obtain ⟨first, rest, rfl⟩ := List.exists_cons_of_ne_nil hne
  have hfirst : first ≠ [] := h first List.mem_cons_self
  by_cases hrest : rest = []
  · rw [hrest, unlines, List.intercalate_singleton]
    exact hfirst
  · rw [unlines_cons hrest]
    exact List.append_ne_nil_of_left_ne_nil hfirst _

theorem Text.unlines_append {us vs : List Text} (hu : ∀ u ∈ us, u ≠ []) (hv : ∀ v ∈ vs, v ≠ []) :
    unlines (us ++ vs) = below (unlines us) (unlines vs) := by
  by_cases hus : us = []
  · rw [hus, List.nil_append, below, if_pos (show unlines [] = [] from rfl)]
  by_cases hvs : vs = []
  · rw [hvs, List.append_nil, below, if_neg (unlines_ne_nil hus hu),
      if_pos (show unlines [] = [] from rfl)]
  rw [below, if_neg (unlines_ne_nil hus hu), if_neg (unlines_ne_nil hvs hv)]
  clear hu hv
  induction us with
  | nil => exact absurd rfl hus
  | cons first rest ih =>
    -- The line feed between the parts comes after the last line of the first.
    have hall : rest ++ vs ≠ [] := List.append_ne_nil_of_right_ne_nil rest hvs
    rw [List.cons_append, unlines_cons hall]
    by_cases hrest : rest = []
    · rw [hrest, List.nil_append, unlines, unlines, List.intercalate_singleton]
    · rw [ih hrest, unlines_cons hrest, List.append_assoc, List.cons_append]

theorem PlacedLine.shown_ne_nil {p : PlacedLine} (h : Readable p.text) : p.shown ≠ [] :=
  List.append_ne_nil_of_right_ne_nil _ h.ne_nil

/-! ### The counter -/

namespace Layout

variable {table : VoidTable}

/-- **The counter is never above the number of open containers,** if no line but a start tag is
taken for one and every closing tag is taken for one. -/
theorem depthAfter_le_of_path {frames last : List Frame} {entries : List Entry}
    (hpath : Outline.Path frames entries last)
    (hstands : ∀ e ∈ entries, e.mark = .stands → shape table e.line.text ≠ .opening)
    (hcloses : ∀ e ∈ entries, e.mark = .closes → shape table e.line.text = .closing)
    {depth : Nat} (hdepth : depth ≤ frames.length) :
    depthAfter table depth (entries.map (·.line.text)) ≤ last.length := by
  induction hpath generalizing depth with
  | nil frames => exact hdepth
  | @cons before between after e rest hmove _ ih =>
    -- One line keeps the counter below the containers, whatever it was before.
    have hstep : (shape table e.line.text).depthAfter depth ≤ between.length := by
      have hle := (shape table e.line.text).depthAfter_le depth
      cases hmove with
      | opens _ frame html =>
        have hone : (if shape table html = .opening then 1 else 0) ≤ 1 := by split <;> omega
        exact (hle.trans (Nat.add_le_add_left hone depth)).trans (Nat.succ_le_succ hdepth)
      | stands _ line =>
        rw [if_neg (hstands _ List.mem_cons_self rfl)] at hle
        exact hle.trans hdepth
      | closes frame _ =>
        rw [hcloses _ List.mem_cons_self rfl]
        exact Nat.sub_le_of_le_add hdepth
    exact ih (fun e' he' => hstands e' (List.mem_cons_of_mem _ he'))
      (fun e' he' => hcloses e' (List.mem_cons_of_mem _ he')) hstep

end Layout

/-! ### Documents -/

namespace Renderer

variable {r : Renderer}

/-- Lines that begin at the margin come after all that is open is closed. -/
theorem unwind_of_margin {lines : List Line} (h : ∀ line ∈ lines.head?, line.indent = 0)
    (frames : List Frame) :
    r.unwind frames lines = frames.map Frame.closing ++ r.unwind [] lines := by
  cases lines with
  | nil =>
    rw [unwind_nil, unwind_nil, List.map_nil, List.append_nil]
  | cons line rest =>
    have hall : ∀ frame ∈ frames, decide (line.indent ≤ frame.indent) = true := by
      intro frame _
      rw [h line rfl]
      exact decide_eq_true (Nat.zero_le _)
    rw [unwind_closeUntil, List.takeWhile_eq_self_iff.mpr hall, List.dropWhile_eq_nil_iff.mpr hall]

/-- Lines that begin at the margin write the same after other lines as they do alone. -/
theorem map_line_history_append (first : List Line) {second : List Line}
    (h : ∀ line ∈ second.head?, line.indent = 0) :
    (r.history (first ++ second)).map Entry.line =
      (r.history first).map Entry.line ++ (r.history second).map Entry.line := by
  rw [map_line_history_eq_finish, List.foldl_append, finish_foldl_step, unwind_of_margin h,
    map_line_history_eq_finish, map_line_history_eq_preorder, finish, List.append_assoc]
  rfl

/-- After a document without plain lines that look like tags, the counter is where it began. -/
theorem depthAfter_history {source : Text}
    (hplain : ∀ line ∈ significant source, line.kind = .text → line.content.head? ≠ some '<') :
    Layout.depthAfter r.table 0 ((r.history (significant source)).map (·.line.text)) = 0 := by
  -- Only a plain line can begin with an opening bracket.
  have hstart : ∀ line ∈ significant source, line.content.head? ≠ some '<' := by
    intro line hline hhead
    obtain ⟨rest, hrest⟩ := List.head?_eq_some_iff.mp hhead
    refine hplain line hline ?_ hhead
    rw [Line.kind, hrest]
    rfl
  refine Nat.le_zero.mp (Layout.depthAfter_le_of_path (path_history _) ?_ ?_ (Nat.le_refl 0))
  · intro e he hmark
    obtain ⟨line, hline, hwrites⟩ := exists_writes he
    cases hwrites with
    | opens _ _ => cases hmark
    | stands hopens _ =>
      show Layout.shape r.table (r.markup line) ≠ .opening
      rw [shape_of_not_opens (hstart line hline) hopens]
      decide
    | closes _ _ => cases hmark
  · intro e he hmark
    obtain ⟨line, -, hwrites⟩ := exists_writes he
    cases hwrites with
    | opens _ _ => cases hmark
    | stands _ _ => cases hmark
    | closes _ _ => exact Layout.shape_closingTag _

/-- **The bare lines of the whole are those of the parts.** -/
theorem bareLines_append (a b : Text) :
    bareLines (a ++ '\n' :: b) =
      bareLines a ++ (bareLines b).map (Line.renumber (· + (Text.lines a).length)) := by
  rw [bareLines, Text.lines_append, bareOf_append]
  rfl

theorem flatMap_diagnose_append (a b : Text) :
    (significant (a ++ '\n' :: b)).flatMap r.diagnose =
      (significant a).flatMap r.diagnose ++ ((significant b).flatMap r.diagnose).map
        (Diagnostic.renumber (· + (Text.lines a).length)) := by
  have hmoved : ((bareLines b).map (Line.renumber (· + (Text.lines a).length))).flatMap
        r.diagnose =
      ((bareLines b).flatMap r.diagnose).map
        (Diagnostic.renumber (· + (Text.lines a).length)) :=
    flatMap_diagnose_renumber fun line _ => Nat.add_right_comm line.number 1 _
  rw [← flatMap_diagnose_bareLines, bareLines_append, List.flatMap_append, hmoved,
    flatMap_diagnose_bareLines, flatMap_diagnose_bareLines]

/-- Lines in two parts are arranged part by part, if the counter is back at zero in between. -/
theorem arranged_append {ps : List PlacedLine}
    (h : r.options.formatOutput = true →
      Layout.depthAfter r.table 0 (ps.map PlacedLine.text) = 0) (qs : List PlacedLine) :
    r.arranged (ps ++ qs) = r.arranged ps ++ r.arranged qs := by
  unfold arranged
  split
  · rename_i hformat
    rw [List.map_append, Layout.arrange_append, h hformat]
  · rfl

theorem arrangement_append {a b : Text} (hmargin : ∀ line ∈ (significant b).head?, line.indent = 0)
    (hplain : r.options.formatOutput = true →
      ∀ line ∈ significant a, line.kind = .text → line.content.head? ≠ some '<') :
    r.arrangement (a ++ '\n' :: b) = r.arrangement a ++ r.arrangement b := by
  have hmargin' : ∀ line ∈ ((bareLines b).map (Line.renumber (· + (Text.lines a).length))).head?,
      line.indent = 0 := by
    intro line hline
    rw [← map_bare_significant, List.map_map, List.head?_map] at hline
    obtain ⟨first, hfirst, rfl⟩ := Option.map_eq_some_iff.mp hline
    show first.bare.indent = 0
    rw [Line.indent_bare (content_ne_nil (List.mem_of_mem_head? hfirst)), hmargin first hfirst]
  have hlines : (r.history (significant (a ++ '\n' :: b))).map Entry.line =
      (r.history (significant a)).map Entry.line ++
        (r.history (significant b)).map Entry.line := by
    rw [← map_line_history_bareLines, bareLines_append, map_line_history_append _ hmargin',
      map_line_history_renumber, map_line_history_bareLines, map_line_history_bareLines]
  rw [arrangement, hlines, arranged_append]
  · rfl
  · intro hformat
    rw [List.map_map]
    exact depthAfter_history (hplain hformat)

/-- **Documents compose.** Let the first significant line of `b`, if it has one, stand at the
margin, and laid out by depth let no plain line of `a` begin with an opening bracket. If both
documents can be rendered, then so can the two with a line feed between them. The output is the two
outputs one below the other. The diagnostics are those of `a` and then those of `b`, with line
numbers that are higher by the number of lines of `a`. -/
theorem render_append (r : Renderer) (a b : Text) (first second : Rendered)
    (hmargin : ∀ line ∈ (significant b).head?, line.indent = 0)
    (hplain : r.options.formatOutput = true →
      ∀ line ∈ significant a, line.kind = .text → line.content.head? ≠ some '<')
    (ha : r.render a = .ok first) (hb : r.render b = .ok second) :
    r.render (a ++ '\n' :: b) = .ok
      { output := Text.below first.output second.output
        diagnostics := first.diagnostics ++
          second.diagnostics.map (Diagnostic.renumber (· + (Text.lines a).length)) } := by
  obtain ⟨hwidths, rfl⟩ := render_eq_ok_iff_arrangement.mp ha
  obtain ⟨hwidths', rfl⟩ := render_eq_ok_iff_arrangement.mp hb
  have hshown : ∀ source, ∀ t ∈ (r.arrangement source).map PlacedLine.shown, t ≠ [] :=
    fun source => List.forall_mem_map.mpr fun p hp =>
      PlacedLine.shown_ne_nil (readable_arrangement source p hp)
  refine render_eq_ok_iff_arrangement.mpr ⟨?_, ?_⟩
  · rw [arrangement_append hmargin hplain, List.map_append]
    exact firstTooWide_append_eq_none_iff.mpr ⟨hwidths, hwidths'⟩
  · rw [arrangement_append hmargin hplain, List.map_append,
      Text.unlines_append (hshown a) (hshown b), flatMap_diagnose_append]

/-- The first document ends in a carriage return and leaves two containers open that layout does
not know of, and the second has something to be remarked on in both of its lines. -/
theorem render_append_seam :
    (∀ line ∈ (significant "!d\n%br e".toList).head?, line.indent = 0) ∧
    (∀ line ∈ significant "%1a\n  %b\x7bx: </b>\x7d\n   c\r".toList,
      line.kind = .text → line.content.head? ≠ some '<') ∧
    Renderer.render {} "%1a\n  %b\x7bx: </b>\x7d\n   c\r".toList =
      .ok ⟨"<1a>\n<b x=\"</b>\">\nc\n</b>\n</1a>".toList, []⟩ ∧
    Renderer.render {} "!d\n%br e".toList =
      .ok ⟨"!d\n<br />".toList,
        [.metadata 1 "!d".toList, .ofIssue 2 (.contentOnVoid "e".toList)]⟩ ∧
    Renderer.render {} "%1a\n  %b\x7bx: </b>\x7d\n   c\r\n!d\n%br e".toList =
      .ok ⟨"<1a>\n<b x=\"</b>\">\nc\n</b>\n</1a>\n!d\n<br />".toList,
        [.metadata 4 "!d".toList, .ofIssue 5 (.contentOnVoid "e".toList)]⟩ := by
  have hmargin : ∀ line ∈ (significant "!d\n%br e".toList).head?, line.indent = 0 := by
    have hfirst : (significant "!d\n%br e".toList).head? = some ⟨0, "!d".toList⟩ := by cbv
    rw [hfirst]
    rintro _ ⟨⟩
    decide
  have hplain : ∀ line ∈ significant "%1a\n  %b\x7bx: </b>\x7d\n   c\r".toList,
      line.kind = .text → line.content.head? ≠ some '<' := by
    have hall : ((significant "%1a\n  %b\x7bx: </b>\x7d\n   c\r".toList).all fun line =>
        line.content.head? != some '<') = true := by
      cbv
    intro line hline _
    exact bne_iff_ne.mp (List.all_eq_true.mp hall line hline)
  have ha : Renderer.render {} "%1a\n  %b\x7bx: </b>\x7d\n   c\r".toList =
      .ok ⟨"<1a>\n<b x=\"</b>\">\nc\n</b>\n</1a>".toList, []⟩ := by
    cbv
  have hb : Renderer.render {} "!d\n%br e".toList =
      .ok ⟨"!d\n<br />".toList,
        [.metadata 1 "!d".toList, .ofIssue 2 (.contentOnVoid "e".toList)]⟩ := by
    cbv
  exact ⟨hmargin, hplain, ha, hb, render_append {} _ _ _ _ hmargin (fun _ => hplain) ha hb⟩

end Renderer

end Offside
