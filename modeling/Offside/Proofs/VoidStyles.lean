import Offside.Proofs.Arrangement
import Offside.Proofs.Depth

/-!
# Void elements in other styles

The style of void elements changes how their start tags end and nothing else
(`Renderer.render_withStyle`). Two renderings in different styles are compared line by line, each
line of output with the source line whose markup it is (`Forest.origins`). The relation is
`Renderer.Restyled`: closing tags are the same, and so is the markup of a line, unless it is a tag
line with the name of a void element, where an end `>` in the one is an end ` />` in the other.

* **In the outline** the relation holds, since containers have no void elements as start tags and
  the forest of a document therefore does not depend on the style (`Renderer.restyled_flatten`). The
  induction is over the forest.
* **In the layout** it still holds (`Renderer.Restyled.arrange`). The counter takes both tags for
  elements that end themselves, one by the slash at its end and both by the name in the table.
  So it goes the same way after the two, whatever else in the document may lead it astray.
-/

namespace Offside

open Outline

namespace Tag

/-- Only a void element is written by the style. -/
theorem fragment_of_not_isVoid {tag : Tag} (h : tag.isVoid = false) (style style' : VoidStyle) :
    tag.fragment style = tag.fragment style' := by
  unfold fragment
  rw [h]
  rfl

theorem fragment_of_isVoid {tag : Tag} (h : tag.isVoid = true) (style : VoidStyle) :
    tag.fragment style = ⟨.void, tag.name, tag.head ++ style.terminator⟩ :=
  if_pos h

theorem kind_fragment (tag : Tag) (style style' : VoidStyle) :
    (tag.fragment style).kind = (tag.fragment style').kind := by
  by_cases h : tag.isVoid = true
  · rw [fragment_of_isVoid h, fragment_of_isVoid h]
  · rw [fragment_of_not_isVoid (Bool.eq_false_of_not_eq_true h) style style']

end Tag

/-- For each line of a forest in pre-order, the source line whose markup it is. A closing tag is
the markup of none. -/
def Forest.origins : Forest → List (Option Line)
  | .empty => []
  | .leaf line next => some line :: next.origins
  | .container line children next => some line :: (children.origins ++ none :: next.origins)

namespace Renderer

/-- The same renderer with another style of void elements. -/
def withStyle (r : Renderer) (style : VoidStyle) : Renderer :=
  { r with options := { r.options with voidStyle := style } }

/-- A tag line with the name of a void element. -/
def isVoid (r : Renderer) (line : Line) : Bool :=
  line.kind = .tag && r.table.contains (r.fragment line).name

variable {r : Renderer} {line : Line}

/-! ### One line in two styles -/

theorem name_fragment_withStyle (style : VoidStyle) (line : Line) :
    ((r.withStyle style).fragment line).name = (r.fragment line).name := by
  rw [fragment, fragment, Tag.name_fragment, Tag.name_fragment]
  rfl

theorem opens_withStyle (style : VoidStyle) : (r.withStyle style).opens = r.opens := by
  funext line
  have hkind : ((r.withStyle style).fragment line).kind = (r.fragment line).kind :=
    Tag.kind_fragment _ _ _
  rw [opens, opens, hkind]

theorem isVoid_iff :
    r.isVoid line = true ↔
      line.kind = .tag ∧ (Tag.read r.table line.content).tag.isVoid = true := by
  rw [isVoid, Tag.isVoid_read, fragment, Tag.name_fragment]
  simp

theorem markup_withStyle_of_not_isVoid (h : r.isVoid line = false) (style style' : VoidStyle) :
    (r.withStyle style).markup line = (r.withStyle style').markup line := by
  by_cases htag : line.kind = .tag
  · have hvoid : (Tag.read r.table line.content).tag.isVoid = false := by
      by_contra hvoid
      exact absurd (isVoid_iff.mpr ⟨htag, Bool.eq_true_of_not_eq_false hvoid⟩) (by simp [h])
    rw [markup_of_tag htag, markup_of_tag htag]
    exact congrArg Fragment.html (Tag.fragment_of_not_isVoid hvoid style style')
  · rw [markup_of_not_tag htag, markup_of_not_tag htag]

theorem markup_withStyle_of_isVoid (h : r.isVoid line = true) (style : VoidStyle) :
    (r.withStyle style).markup line =
      (Tag.read r.table line.content).tag.head ++ style.terminator := by
  obtain ⟨htag, hvoid⟩ := isVoid_iff.mp h
  rw [markup_of_tag htag]
  exact congrArg Fragment.html (Tag.fragment_of_isVoid hvoid style)

/-! ### Outputs in two styles -/

/-- **Two outputs that differ in the style of void elements only.** They are compared line by line
with the source lines that they come from. -/
inductive Restyled (r : Renderer) :
    List (Option Line) → List PlacedLine → List PlacedLine → Prop
  | nil : Restyled r [] [] []
  /-- A closing tag is the same in both. -/
  | closing (width : Nat) (name : Text) {origins : List (Option Line)} {ps qs : List PlacedLine}
      (rest : Restyled r origins ps qs) :
      Restyled r (none :: origins) (⟨width, Fragment.closingTag name⟩ :: ps)
        (⟨width, Fragment.closingTag name⟩ :: qs)
  /-- So is the markup of any line but a void tag line. -/
  | same (width : Nat) {line : Line} (h : r.isVoid line = false) {origins : List (Option Line)}
      {ps qs : List PlacedLine} (rest : Restyled r origins ps qs) :
      Restyled r (some line :: origins) (⟨width, (r.withStyle .html5).markup line⟩ :: ps)
        (⟨width, (r.withStyle .html5).markup line⟩ :: qs)
  /-- On a void tag line the end of the tag is another. -/
  | void (width : Nat) {line : Line} (h : r.isVoid line = true) {inside : Text}
      (hmarkup : (r.withStyle .html5).markup line = '<' :: (inside ++ ['>']))
      {origins : List (Option Line)} {ps qs : List PlacedLine} (rest : Restyled r origins ps qs) :
      Restyled r (some line :: origins) (⟨width, '<' :: (inside ++ ['>'])⟩ :: ps)
        (⟨width, '<' :: (inside ++ [' ', '/', '>'])⟩ :: qs)

namespace Restyled

variable {origins origins' : List (Option Line)} {ps ps' qs qs' : List PlacedLine}

theorem append (h : r.Restyled origins ps qs) (h' : r.Restyled origins' ps' qs') :
    r.Restyled (origins ++ origins') (ps ++ ps') (qs ++ qs') := by
  induction h with
  | nil => exact h'
  | closing width name _ ih => exact .closing width name ih
  | same width hvoid _ ih => exact .same width hvoid ih
  | void width hvoid hmarkup _ ih => exact .void width hvoid hmarkup ih

theorem map_indent (h : r.Restyled origins ps qs) :
    qs.map PlacedLine.indent = ps.map PlacedLine.indent := by
  induction h with
  | nil => rfl
  | closing width _ _ ih => exact congrArg (width :: ·) ih
  | same width _ _ ih => exact congrArg (width :: ·) ih
  | void width _ _ _ ih => exact congrArg (width :: ·) ih

/-- **Layout goes the same way** through both. -/
theorem arrange {unit : Nat} (h : r.Restyled origins ps qs) (depth : Nat) :
    r.Restyled origins (Layout.arrange unit r.table depth (ps.map PlacedLine.text))
      (Layout.arrange unit r.table depth (qs.map PlacedLine.text)) := by
  induction h generalizing depth with
  | nil => exact .nil
  | closing width name _ ih => exact .closing _ name (ih _)
  | same width hvoid _ ih => exact .same _ hvoid (ih _)
  | @void width line hvoid inside hmarkup _ _ _ _ ih =>
    have hhead : (Tag.read r.table line.content).tag.head = '<' :: inside := by
      rw [markup_withStyle_of_isVoid hvoid, ← List.cons_append] at hmarkup
      exact List.append_cancel_right hmarkup
    -- The name is in the table, so neither tag is taken for one that something must close.
    have hshape : ∀ style : VoidStyle,
        Layout.shape r.table ('<' :: (inside ++ style.terminator)) = .level := by
      intro style
      rw [← List.cons_append, ← hhead]
      exact Layout.shape_void (Tag.isName_read _ _) (isVoid_iff.mp hvoid).2 style
    have hhtml : Layout.shape r.table ('<' :: (inside ++ ['>'])) = .level := hshape .html5
    have hxhtml : Layout.shape r.table ('<' :: (inside ++ [' ', '/', '>'])) = .level :=
      hshape .xhtml
    rw [List.map_cons, List.map_cons, Layout.arrange, Layout.arrange, hhtml, hxhtml]
    exact .void _ hvoid hmarkup (ih _)

theorem arranged (h : r.Restyled origins ps qs) :
    r.Restyled origins (r.arranged ps) (r.arranged qs) := by
  unfold Renderer.arranged
  split
  · exact h.arrange 0
  · exact h

end Restyled

/-- One line more of two outputs, whatever kind of line it comes from. -/
theorem restyled_cons {origins : List (Option Line)} {ps qs : List PlacedLine} (line : Line)
    (h : r.Restyled origins ps qs) :
    r.Restyled (some line :: origins) (⟨line.indent, (r.withStyle .html5).markup line⟩ :: ps)
      (⟨line.indent, (r.withStyle .xhtml).markup line⟩ :: qs) := by
  by_cases hvoid : r.isVoid line = true
  · have hhtml := markup_withStyle_of_isVoid hvoid .html5
    rw [hhtml, markup_withStyle_of_isVoid hvoid .xhtml]
    exact .void _ hvoid hhtml h
  · have hvoid : r.isVoid line = false := Bool.eq_false_of_not_eq_true hvoid
    rw [markup_withStyle_of_not_isVoid hvoid .xhtml .html5]
    exact .same _ hvoid h

/-- **The outlines are related,** whatever forest is written. -/
theorem restyled_flatten (forest : Forest) :
    r.Restyled forest.origins ((r.withStyle .html5).flatten forest)
      ((r.withStyle .xhtml).flatten forest) := by
  induction forest with
  | empty => exact .nil
  | leaf line next ih => exact restyled_cons line ih
  | container line children next ihchildren ihnext =>
    refine restyled_cons line (ihchildren.append ?_)
    rw [name_fragment_withStyle, name_fragment_withStyle]
    exact .closing _ _ ihnext

/-! ### Documents in two styles -/

theorem restyled_arrangement (source : Text) :
    r.Restyled (Forest.origins (.ofLines r.opens (significant source)))
      ((r.withStyle .html5).arrangement source) ((r.withStyle .xhtml).arrangement source) := by
  have h := restyled_flatten (r := r) (.ofLines r.opens (significant source))
  rw [arrangement, arrangement, map_line_history_eq_preorder, map_line_history_eq_preorder,
    preorder, preorder, opens_withStyle, opens_withStyle]
  exact h.arranged

/-- The two styles of HTML write the same. -/
theorem render_html4 (source : Text) :
    (r.withStyle .html4).render source = (r.withStyle .html5).render source := by
  have hstep : (r.withStyle .html4).step = (r.withStyle .html5).step := rfl
  have harrangement : (r.withStyle .html4).arrangement source =
      (r.withStyle .html5).arrangement source := by
    rw [arrangement, arrangement, map_line_history_eq_finish, map_line_history_eq_finish, hstep]
    rfl
  rw [render_eq_arrangement, render_eq_arrangement, harrangement]
  rfl

/-- **The style changes the end of void elements and nothing else.** Both styles of HTML give the
same outcome. In XHTML a document is refused exactly if it is in HTML, and for the same width.
Otherwise there are the same diagnostics, and the outputs have lines at the same widths. On void tag
lines an end `>` has become ` />`, and all other lines are the same. -/
theorem render_withStyle (r : Renderer) (source : Text) :
    (r.withStyle .html4).render source = (r.withStyle .html5).render source ∧
    (∀ error, (r.withStyle .xhtml).render source = .error error ↔
      (r.withStyle .html5).render source = .error error) ∧
    ∀ html, (r.withStyle .html5).render source = .ok html →
      ∃ xhtml, (r.withStyle .xhtml).render source = .ok xhtml ∧
        xhtml.diagnostics = html.diagnostics ∧
        ∃ ps qs : List PlacedLine,
          r.Restyled (Forest.origins (.ofLines r.opens (significant source))) ps qs ∧
          (∀ p ∈ ps ++ qs, Readable p.text) ∧
          html.output = Text.unlines (ps.map PlacedLine.shown) ∧
          xhtml.output = Text.unlines (qs.map PlacedLine.shown) ∧
          (ps ≠ [] → Text.lines html.output = ps.map PlacedLine.shown ∧
            Text.lines xhtml.output = qs.map PlacedLine.shown) := by
  have hrestyled := restyled_arrangement (r := r) source
  have hwidths := hrestyled.map_indent
  refine ⟨render_html4 source, ?_, ?_⟩
  · intro error
    rw [render_eq_error_iff_arrangement, render_eq_error_iff_arrangement, hwidths]
  · intro html hhtml
    obtain ⟨hnone, hrendered⟩ := render_eq_ok_iff_arrangement.mp hhtml
    have hnone' : firstTooWide
        (((r.withStyle .xhtml).arrangement source).map PlacedLine.indent) = none := by
      rw [hwidths]
      exact hnone
    have hxhtml := render_eq_ok_iff_arrangement.mpr ⟨hnone', rfl⟩
    refine ⟨_, hxhtml, ?_, _, _, hrestyled, ?_, ?_, rfl, ?_⟩
    · rw [hrendered]
      rfl
    · exact List.forall_mem_append.mpr
        ⟨readable_arrangement source, readable_arrangement source⟩
    · rw [hrendered]
    · intro hne
      refine ⟨lines_output hhtml hne, lines_output hxhtml ?_⟩
      intro hnil
      rw [hnil] at hwidths
      exact hne (List.map_eq_nil_iff.mp hwidths.symm)

/-- A void element with a name in capitals is written below a plain line that the counter takes for
a start tag, and the text after its name is remarked on. -/
theorem render_withStyle_capitals :
    (Renderer.withStyle {} .html5).render "<u>\n%a\n  %BR x\n  %p y".toList = .ok
      ⟨"<u>\n  <a>\n    <BR>\n    <p>y</p>\n  </a>".toList,
        [.ofIssue 3 (.contentOnVoid "x".toList)]⟩ ∧
    (Renderer.withStyle {} .xhtml).render "<u>\n%a\n  %BR x\n  %p y".toList = .ok
      ⟨"<u>\n  <a>\n    <BR />\n    <p>y</p>\n  </a>".toList,
        [.ofIssue 3 (.contentOnVoid "x".toList)]⟩ ∧
    ∃ ps qs : List PlacedLine,
      Renderer.Restyled {} (Forest.origins (.ofLines (Renderer.opens {})
        (significant "<u>\n%a\n  %BR x\n  %p y".toList))) ps qs ∧
      "<u>\n  <a>\n    <BR>\n    <p>y</p>\n  </a>".toList =
        Text.unlines (ps.map PlacedLine.shown) ∧
      "<u>\n  <a>\n    <BR />\n    <p>y</p>\n  </a>".toList =
        Text.unlines (qs.map PlacedLine.shown) := by
  have hhtml : (Renderer.withStyle {} .html5).render "<u>\n%a\n  %BR x\n  %p y".toList = .ok
      ⟨"<u>\n  <a>\n    <BR>\n    <p>y</p>\n  </a>".toList,
        [.ofIssue 3 (.contentOnVoid "x".toList)]⟩ := by
    cbv
  have hxhtml : (Renderer.withStyle {} .xhtml).render "<u>\n%a\n  %BR x\n  %p y".toList = .ok
      ⟨"<u>\n  <a>\n    <BR />\n    <p>y</p>\n  </a>".toList,
        [.ofIssue 3 (.contentOnVoid "x".toList)]⟩ := by
    cbv
  obtain ⟨xhtml, hrender, -, ps, qs, hrestyled, -, hps, hqs, -⟩ :=
    (render_withStyle {} _).2.2 _ hhtml
  obtain rfl := Except.ok.inj (hrender.symm.trans hxhtml)
  exact ⟨hhtml, hxhtml, ps, qs, hrestyled, hps, hqs⟩

end Renderer

end Offside
