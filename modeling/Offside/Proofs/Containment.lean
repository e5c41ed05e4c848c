import Offside.Proofs.Arrangement
import Offside.Proofs.Depth

/-!
# Containers in a layout

A layout should show what is inside what: a closing line stands in the column of the line that it
closes, and every line between the two stands further in (`Outline.KeepsInside`). Whether it does
depends on the names of the containers. A line of shorthand may give any name of letters, digits
and hyphens. Layout takes the tag that opens a container for text unless the name begins with a
letter, and yet takes every tag that closes one for what it is (`Outline.Mark.shapeRead`). So for a
container with another name its counter goes down without having gone up.

That does no harm in one case only. At the margin the counter cannot go down, and if nothing is
inside the container, nothing is missing there either. So layout shows what is inside what exactly
if every container whose name does not begin with a letter stands at the margin and is closed at
once (`Outline.Entry.Settled`, `Renderer.keepsInside_iff`).

Both directions are inductions along the history with one invariant (`Layout.InStep`): the counter
is the number of open containers, but for a container at the margin that is about to be closed. The
first container that is not as it should be breaks the columns in the very next line.
-/

namespace Offside

/-- The column in which the first character of a line stands that is not blank. -/
def Text.column (line : Text) : Nat :=
  (Text.leading line).length

namespace Outline

/-! ### What a layout should show -/

/-- **Containers keep what is inside them.** The lines of a history are given with the columns that
they are printed in. Wherever a line is closed by another, the two stand in one column, and all
lines between them stand further in. -/
def KeepsInside (printed : List (Entry × Nat)) : Prop :=
  ∀ before a inner b after, printed = before ++ a :: (inner ++ b :: after) →
    a.1.Encloses b.1 → Nested (inner.map Prod.fst) →
      b.2 = a.2 ∧ ∀ line ∈ inner, a.2 < line.2

/-- Two entries in a row are settled unless the first opens a container whose name does not begin
with a letter. Then it must stand at the margin, and the second must close it. -/
def Entry.Settled (a b : Entry) : Prop :=
  ∀ frame, a.mark = .opens frame →
    frame.name.head?.any Char.isAlpha = true ∨ (a.around = [] ∧ b.mark = .closes)

/-- The shape that layout finds in the line of an entry. -/
def Mark.shapeRead : Mark → Layout.Shape
  | .opens frame => if frame.name.head?.any Char.isAlpha then .opening else .level
  | .stands => .level
  | .closes => .closing

/-! ### Paths through nested words -/

theorem Path.of_append {before after : List Frame} {us vs : List Entry}
    (h : Path before (us ++ vs) after) :
    ∃ between, Path before us between ∧ Path between vs after := by
  induction us generalizing before with
  | nil => exact ⟨before, .nil before, h⟩
  | cons u us ih =>
    cases h with
    | cons hmove hrest =>
      obtain ⟨between, hus, hvs⟩ := ih hrest
      exact ⟨between, .cons hmove hus, hvs⟩

/-- A nested word leaves the containers open that it finds open, and they stay open all along. -/
theorem Path.length_le_of_nested {word : List Entry} (hword : Nested word)
    {before after : List Frame} (h : Path before word after) :
    after = before ∧ ∀ e ∈ word, before.length ≤ e.around.length := by
  induction hword generalizing before after with
  | nil =>
    cases h
    exact ⟨rfl, fun e he => absurd he List.not_mem_nil⟩
  | leaf hleaf _ ih =>
    cases h with
    | cons hmove hrest =>
      cases hmove with
      | opens _ _ _ => cases hleaf
      | closes _ _ => cases hleaf
      | stands _ line =>
        obtain ⟨rfl, hlater⟩ := ih hrest
        exact ⟨rfl, List.forall_mem_cons.mpr ⟨Nat.le_refl _, hlater⟩⟩
  | pair hpair _ _ ihinner ihword =>
    obtain ⟨frame, ha, -, hb, -, -⟩ := hpair
    cases h with
    | cons hfirst hrest =>
      obtain ⟨between, hinner, hrest⟩ := hrest.of_append
      cases hfirst with
      | stands _ _ => cases ha
      | closes _ _ => cases ha
      | opens _ frame html =>
        -- Inside the pair one container more is open, and the second tag of the pair closes it.
        obtain ⟨rfl, hinside⟩ := ihinner hinner
        cases hrest with
        | cons hlast hword =>
          cases hlast with
          | opens _ _ _ => cases hb
          | stands _ _ => cases hb
          | closes _ _ =>
            obtain ⟨rfl, hlater⟩ := ihword hword
            refine ⟨rfl, ?_⟩
            intro e he
            rcases List.mem_cons.mp he with rfl | he
            · exact Nat.le_refl _
            rcases List.mem_append.mp he with he | he
            · exact Nat.le_of_succ_le (hinside e he)
            rcases List.mem_cons.mp he with rfl | he
            · exact Nat.le_refl _
            · exact hlater e he

/-- The first entry of a nested word closes nothing. -/
theorem Nested.head_ne_closes {e : Entry} {rest : List Entry} (h : Nested (e :: rest)) :
    e.mark ≠ .closes := by
  cases h with
  | leaf hleaf _ =>
    intro hcloses
    rw [Entry.IsLeaf, hcloses] at hleaf
    cases hleaf
  | pair hpair _ _ =>
    obtain ⟨frame, hopens, -⟩ := hpair
    intro hcloses
    rw [hopens] at hcloses
    cases hcloses

/-- Lines that are printed by the number of containers around them keep these containers. -/
theorem keepsInside_of_around {unit : Nat} (hunit : 1 ≤ unit) {printed : List (Entry × Nat)}
    (hpath : Path [] (printed.map Prod.fst) [])
    (hcolumn : ∀ line ∈ printed, line.2 = line.1.around.length * unit) : KeepsInside printed := by
  rintro before a inner b after rfl hencloses hinner
  rw [List.map_append, List.map_cons, List.map_append, List.map_cons] at hpath
  obtain ⟨around, -, hpath⟩ := hpath.of_append
  have ha := hcolumn a (by simp)
  have hb := hcolumn b (by simp)
  obtain ⟨frame, hopens, -, -, -, hsame⟩ := hencloses
  refine ⟨by rw [ha, hb, hsame], ?_⟩
  intro line hline
  cases hpath with
  | cons hmove hrest =>
    obtain ⟨between, hpath, -⟩ := hrest.of_append
    have hlength := (hpath.length_le_of_nested hinner).2 line.1 (List.mem_map_of_mem hline)
    rw [ha, hcolumn line (by simp [hline])]
    -- The container itself is one of those around the line.
    have hlt : a.1.around.length < line.1.around.length := by
      generalize a.1 = first at hmove hopens
      cases hmove with
      | opens _ _ _ => exact hlength
      | stands _ _ => cases hopens
      | closes _ _ => cases hopens
    exact Nat.mul_lt_mul_of_pos_right hlt hunit

end Outline

namespace Layout

open Outline

variable {unit : Nat} {table : VoidTable}

/-! ### The columns that layout prints -/

/-- The entries of a history with the columns that layout prints their lines in. -/
def printed (unit : Nat) (table : VoidTable) (depth : Nat) : List Entry → List (Entry × Nat)
  | [] => []
  | e :: rest =>
    (e, (shape table e.line.text).depthAt depth * unit) ::
      printed unit table ((shape table e.line.text).depthAfter depth) rest

theorem map_fst_printed (depth : Nat) (entries : List Entry) :
    (printed unit table depth entries).map Prod.fst = entries := by
  induction entries generalizing depth with
  | nil => rfl
  | cons e rest ih => rw [printed, List.map_cons, ih]

theorem printed_append (depth : Nat) (us vs : List Entry) :
    printed unit table depth (us ++ vs) =
      printed unit table depth us ++
        printed unit table (depthAfter table depth (us.map (·.line.text))) vs := by
  induction us generalizing depth with
  | nil => rfl
  | cons e us ih =>
    rw [List.cons_append, printed, ih, printed, List.cons_append]
    rfl

theorem zip_arrange (depth : Nat) (entries : List Entry) :
    entries.zip ((arrange unit table depth (entries.map (·.line.text))).map PlacedLine.indent) =
      printed unit table depth entries := by
  induction entries generalizing depth with
  | nil => rfl
  | cons e rest ih => rw [List.map_cons, arrange, List.map_cons, List.zip_cons_cons, ih, printed]

/-! ### The counter along a history -/

/-- **The invariant.** The counter is the number of open containers. Only when the one open
container is about to be closed may it be zero. -/
def InStep (depth : Nat) (frames : List Frame) (entries : List Entry) : Prop :=
  depth = frames.length ∨
    (depth = 0 ∧ frames.length = 1 ∧ ∀ e ∈ entries.head?, e.mark = .closes)

/-- **The step.** If an entry is settled with the next one, its line is placed by the number of
containers around it, and the invariant holds after it. -/
theorem InStep.step {depth : Nat} {before between : List Frame} {e : Entry} {rest : List Entry}
    (hstep : InStep depth before (e :: rest)) (hmove : Entry.Moves before e between)
    (hrest : Outline.Path between rest []) (hsettled : ∀ b ∈ rest.head?, e.Settled b) :
    e.mark.shapeRead.depthAt depth = e.around.length ∧
      InStep (e.mark.shapeRead.depthAfter depth) between rest := by
  rcases hstep with hdepth | ⟨hdepth, hlength, hnext⟩
  · subst hdepth
    cases hmove with
    | stands _ line => exact ⟨rfl, Or.inl rfl⟩
    | closes frame _ => exact ⟨rfl, Or.inl rfl⟩
    | opens _ frame html =>
      by_cases hletter : frame.name.head?.any Char.isAlpha = true
      · rw [Mark.shapeRead, if_pos hletter]
        exact ⟨rfl, Or.inl rfl⟩
      · rw [Mark.shapeRead, if_neg hletter]
        refine ⟨rfl, ?_⟩
        cases hrest with
        | cons hmove' _ =>
          -- The container stands at the margin, where the counter has not gone up.
          rcases hsettled _ rfl frame rfl with hletter' | ⟨hmargin, hcloses⟩
          · exact absurd hletter' hletter
          · obtain rfl : before = [] := hmargin
            refine Or.inr ⟨rfl, rfl, ?_⟩
            intro next hnext
            rwa [← Option.some.inj hnext]
  · -- The entry closes the one open container, and the counter stays at zero.
    have hcloses : e.mark = .closes := hnext e rfl
    subst hdepth
    cases hmove with
    | opens _ _ _ => cases hcloses
    | stands _ _ => cases hcloses
    | closes _ _ =>
      obtain rfl : between = [] := List.length_eq_zero_iff.mp (by simpa using hlength)
      exact ⟨rfl, Or.inl rfl⟩

/-- **The run, from the names to the columns.** Where all entries are settled, every line is
printed by the number of containers around it. -/
theorem column_of_mem_printed {depth : Nat} {frames : List Frame} {entries : List Entry}
    (hpath : Outline.Path frames entries [])
    (hread : ∀ e ∈ entries, shape table e.line.text = e.mark.shapeRead)
    (hchain : entries.IsChain Entry.Settled) (hstep : InStep depth frames entries) :
    ∀ line ∈ printed unit table depth entries, line.2 = line.1.around.length * unit := by
  induction entries generalizing depth frames with
  | nil => exact fun line hline => absurd hline List.not_mem_nil
  | cons e rest ih =>
    cases hpath with
    | cons hmove hrest =>
      obtain ⟨hsettled, hchain⟩ := List.isChain_cons.mp hchain
      obtain ⟨hat, hafter⟩ := hstep.step hmove hrest hsettled
      rw [printed, hread e List.mem_cons_self]
      refine List.forall_mem_cons.mpr ⟨by rw [hat], ?_⟩
      exact ih hrest (fun e' he' => hread e' (List.mem_cons_of_mem _ he')) hchain hafter

/-- A container that layout does not see opened, and that keeps what is inside it, stands at the
margin and is closed at once. -/
theorem settled_of_keepsInside (hunit : 1 ≤ unit) {whole before : List (Entry × Nat)}
    (hkeep : KeepsInside whole) {depth : Nat} {frames between : List Frame} {e b : Entry}
    {rest : List Entry} (hmove : Entry.Moves frames e between)
    (hrest : Outline.Path between (b :: rest) [])
    (hread : ∀ e' ∈ e :: b :: rest, shape table e'.line.text = e'.mark.shapeRead)
    (hdepth : depth = frames.length)
    (hwhole : whole = before ++ printed unit table depth (e :: b :: rest)) : e.Settled b := by
  intro frame hopens
  by_cases hletter : frame.name.head?.any Char.isAlpha = true
  · exact Or.inl hletter
  refine Or.inr ?_
  cases hmove with
  | stands _ _ => cases hopens
  | closes _ _ => cases hopens
  | opens _ frame' html =>
    obtain rfl : frame' = frame := Mark.opens.inj hopens
    -- The rest goes through the inside of the container to the tag that closes it.
    obtain ⟨inner, after, hsplit, hinner, -⟩ := hrest.owes
    have hlevel : Mark.shapeRead (.opens frame') = .level := if_neg hletter
    have hnext := hread b (List.mem_cons_of_mem _ List.mem_cons_self)
    rw [printed, hread _ List.mem_cons_self, hlevel, hsplit, printed_append, printed] at hwhole
    obtain ⟨hclosing, hbetween⟩ := hkeep before _ _ _ _ hwhole
      ⟨frame', rfl, rfl, rfl, rfl, rfl⟩ (by rwa [map_fst_printed])
    -- The counter has not moved, so the tag that opens the container stands where it points.
    change _ = depth * unit at hclosing
    change ∀ line ∈ printed unit table depth inner, depth * unit < line.2 at hbetween
    cases inner with
    | nil =>
      -- Closed at once, the closing tag is one unit further out unless the counter is zero.
      obtain ⟨rfl, -⟩ := List.cons.inj hsplit
      change (shape table frame'.closing.text).depthAt depth * unit = depth * unit at hclosing
      rw [hnext] at hclosing
      have hsame : (depth - 1) * unit = depth * unit := hclosing
      have hzero : depth = 0 := by
        have := Nat.eq_of_mul_eq_mul_right hunit hsame
        omega
      exact ⟨List.length_eq_zero_iff.mp (hdepth.symm.trans hzero), rfl⟩
    | cons first inner =>
      -- The first line inside is printed where the counter stands, which is no further in.
      obtain ⟨rfl, -⟩ := List.cons.inj hsplit
      have hfirst := hbetween _ List.mem_cons_self
      have hmark := hinner.head_ne_closes
      rw [hnext] at hfirst
      cases hb : b.mark with
      | closes => exact absurd hb hmark
      | stands =>
        rw [hb] at hfirst
        exact absurd hfirst (Nat.lt_irrefl _)
      | opens inside =>
        rw [hb, Mark.shapeRead] at hfirst
        split at hfirst <;> exact absurd hfirst (Nat.lt_irrefl _)

/-- **The run, from the columns to the names.** -/
theorem isChain_of_keepsInside (hunit : 1 ≤ unit) {whole before : List (Entry × Nat)}
    (hkeep : KeepsInside whole) {depth : Nat} {frames : List Frame} {entries : List Entry}
    (hpath : Outline.Path frames entries [])
    (hread : ∀ e ∈ entries, shape table e.line.text = e.mark.shapeRead)
    (hstep : InStep depth frames entries)
    (hwhole : whole = before ++ printed unit table depth entries) :
    entries.IsChain Entry.Settled := by
  induction entries generalizing depth frames before with
  | nil => exact List.isChain_nil
  | cons e rest ih =>
    cases hpath with
    | @cons _ between _ _ _ hmove hrest =>
      have hsettled : ∀ b ∈ rest.head?, e.Settled b := by
        intro b hb
        obtain ⟨rest', rfl⟩ := List.head?_eq_some_iff.mp hb
        rcases hstep with hdepth | ⟨-, -, hnext⟩
        · exact settled_of_keepsInside hunit hkeep hmove hrest hread hdepth hwhole
        · -- An entry that closes a container opens none.
          intro frame hopens
          cases (hnext e rfl).symm.trans hopens
      obtain ⟨-, hafter⟩ := hstep.step hmove hrest hsettled
      refine List.isChain_cons.mpr ⟨hsettled, ?_⟩
      have hlater : ∀ e' ∈ rest, shape table e'.line.text = e'.mark.shapeRead :=
        fun e' he' => hread e' (List.mem_cons_of_mem _ he')
      rw [printed, hread e List.mem_cons_self, ← List.singleton_append, ← List.append_assoc]
        at hwhole
      exact ih hrest hlater hafter hwhole

end Layout

/-! ### Documents -/

namespace Renderer

open Outline

variable {r : Renderer} {line : Line}

theorem shape_of_opens_of_not_letter (h : r.opens line = true)
    (hletter : ¬ (r.fragment line).name.head?.any Char.isAlpha = true) :
    Layout.shape r.table (r.markup line) = .level := by
  have hname := isName_fragment (r := r) line
  rcases r.markup_cases line with ⟨hnot, -⟩ | ⟨tag, -, htag, hcases⟩
  · exact absurd h hnot
  · rw [← htag] at hname hletter
    rcases hcases with ⟨-, -, hmarkup⟩ | ⟨hnot, -, -⟩ | ⟨hnot, -, -⟩
    · rw [hmarkup, Layout.shape_head hname (Text.forall_head?_cons (by decide) _),
        Bool.not_eq_true _ |>.mp hletter]
      rfl
    · exact absurd h hnot
    · exact absurd h hnot

/-- **What layout finds in the lines of a history,** if the source has no opening bracket. -/
theorem shape_eq_shapeRead {source : Text} (hfree : '<' ∉ source) :
    ∀ e ∈ r.history (significant source),
      Layout.shape r.table e.line.text = e.mark.shapeRead := by
  intro e he
  obtain ⟨line, hline, hwrites⟩ := exists_writes he
  have hcontent : '<' ∉ line.content := fun hmem => hfree ((of_mem_significant hline).2 hmem)
  cases hwrites with
  | opens hopens _ =>
    show Layout.shape r.table (r.markup line) =
      if (r.fragment line).name.head?.any Char.isAlpha then .opening else .level
    split
    · rename_i hletter
      exact shape_of_opens hcontent hopens hletter
    · rename_i hletter
      exact shape_of_opens_of_not_letter hopens hletter
  | stands hopens _ =>
    exact shape_of_not_opens (fun hstart => hcontent (List.mem_of_mem_head? hstart)) hopens
  | closes _ _ => exact Layout.shape_closingTag _

/-- The columns of an output are the widths that its layout has chosen. -/
theorem zip_column_output {source : Text} {rendered : Rendered}
    (hformat : r.options.formatOutput = true) (h : r.render source = .ok rendered) :
    (r.history (significant source)).zip ((Text.lines rendered.output).map Text.column) =
      Layout.printed r.options.indentUnit r.table 0 (r.history (significant source)) := by
  have harrangement : r.arrangement source = Layout.arrange r.options.indentUnit r.table 0
      ((r.history (significant source)).map (·.line.text)) := by
    rw [arrangement, arranged_of_format hformat, List.map_map]
    rfl
  by_cases hnil : r.history (significant source) = []
  · rw [hnil]
    rfl
  · have hne : r.arrangement source ≠ [] := by
      intro hempty
      have htexts := congrArg (List.map PlacedLine.text) hempty
      rw [harrangement, Layout.map_text_arrange] at htexts
      exact hnil (List.map_eq_nil_iff.mp htexts)
    have hcolumn : ∀ p ∈ r.arrangement source, Text.column p.shown = p.indent := by
      intro p hp
      rw [Text.column, (readable_arrangement source p hp).leading_shown, List.length_replicate]
    rw [lines_output h hne, List.map_map, ← Layout.zip_arrange, ← harrangement]
    exact congrArg _ (List.map_congr_left hcolumn)

/-- **When a layout keeps containers together.** For a source without opening brackets, laid out
with at least one space for each level: every closing line stands in the column of the line that
it closes, and every line between the two stands further in, exactly if each container whose name
does not begin with a letter stands at the margin and is closed at once. -/
theorem keepsInside_iff (r : Renderer) (source : Text) (rendered : Rendered)
    (hformat : r.options.formatOutput = true) (hunit : 1 ≤ r.options.indentUnit)
    (hfree : '<' ∉ source) (h : r.render source = .ok rendered) :
    r.placedLines (significant source) =
        .ok ((r.history (significant source)).map Entry.line) ∧
      (KeepsInside ((r.history (significant source)).zip
          ((Text.lines rendered.output).map Text.column)) ↔
        (r.history (significant source)).IsChain Entry.Settled) := by
  refine ⟨placedLines_eq_history _, ?_⟩
  have hread := shape_eq_shapeRead (r := r) hfree
  have hpath := path_history (r := r) (significant source)
  rw [zip_column_output hformat h]
  constructor
  · intro hkeep
    exact Layout.isChain_of_keepsInside hunit hkeep hpath hread (Or.inl rfl)
      (List.nil_append _).symm
  · intro hchain
    refine keepsInside_of_around hunit ?_
      (Layout.column_of_mem_printed hpath hread hchain (Or.inl rfl))
    rwa [Layout.map_fst_printed]

/-- A container with a digit for a name, empty and at the margin, does not disturb the next one. -/
theorem keepsInside_iff_empty :
    '<' ∉ "%1\n%a\n b".toList ∧
    Renderer.render {} "%1\n%a\n b".toList = .ok ⟨"<1>\n</1>\n<a>\n  b\n</a>".toList, []⟩ ∧
    KeepsInside ((Renderer.history {} (significant "%1\n%a\n b".toList)).zip
      ((Text.lines "<1>\n</1>\n<a>\n  b\n</a>".toList).map Text.column)) := by
  have hfree : '<' ∉ "%1\n%a\n b".toList := by decide
  have hrender : Renderer.render {} "%1\n%a\n b".toList =
      .ok ⟨"<1>\n</1>\n<a>\n  b\n</a>".toList, []⟩ := by
    cbv
  have hmarks : Renderer.history {} (significant "%1\n%a\n b".toList) =
      [⟨.opens ⟨['1'], 0, false⟩, ⟨0, "<1>".toList⟩, []⟩, ⟨.closes, ⟨0, "</1>".toList⟩, []⟩,
        ⟨.opens ⟨['a'], 0, false⟩, ⟨0, "<a>".toList⟩, []⟩,
        ⟨.stands, ⟨1, ['b']⟩, [⟨['a'], 0, false⟩]⟩, ⟨.closes, ⟨0, "</a>".toList⟩, []⟩] := by
    cbv
  refine ⟨hfree, hrender, (keepsInside_iff {} _ _ rfl (by decide) hfree hrender).2.mpr ?_⟩
  rw [hmarks]
  -- Of the two containers the first is closed at once, and the second has a letter for a name.
  refine .cons_cons ?_ (.cons_cons ?_ (.cons_cons ?_ (.cons_cons ?_ (.singleton _))))
  · exact fun frame _ => Or.inr ⟨rfl, rfl⟩
  · intro frame hopens
    cases hopens
  · intro frame hopens
    cases hopens
    exact Or.inl (by decide)
  · intro frame hopens
    cases hopens

/-- **A name that begins with a digit breaks the columns.** The line inside the inner container
stands in the column of the tag that opens it, and the tag that closes it in the column of the
outer one. -/
theorem not_keepsInside_digit :
    '<' ∉ "%div\n  %1\n    x".toList ∧
    Renderer.render {} "%div\n  %1\n    x".toList =
      .ok ⟨"<div>\n  <1>\n  x\n</1>\n</div>".toList, []⟩ ∧
    ¬ KeepsInside ((Renderer.history {} (significant "%div\n  %1\n    x".toList)).zip
      ((Text.lines "<div>\n  <1>\n  x\n</1>\n</div>".toList).map Text.column)) := by
  refine ⟨by decide, by cbv, ?_⟩
  intro hkeep
  let outer : Frame := ⟨"div".toList, 0, false⟩
  let inner : Frame := ⟨['1'], 2, false⟩
  have hprinted : (Renderer.history {} (significant "%div\n  %1\n    x".toList)).zip
      ((Text.lines "<div>\n  <1>\n  x\n</1>\n</div>".toList).map Text.column) =
        [(⟨.opens outer, ⟨0, "<div>".toList⟩, []⟩, 0)] ++
          (⟨.opens inner, ⟨2, "<1>".toList⟩, [outer]⟩, 2) ::
            ([(⟨.stands, ⟨4, ['x']⟩, [inner, outer]⟩, 2)] ++
              (⟨.closes, inner.closing, [outer]⟩, 0) :: [(⟨.closes, outer.closing, []⟩, 0)]) := by
    cbv
  have hcolumns := (hkeep _ _ _ _ _ hprinted ⟨inner, rfl, rfl, rfl, rfl, rfl⟩
    (WellNested.leaf rfl WellNested.nil)).1
  cases hcolumns

end Renderer

end Offside
