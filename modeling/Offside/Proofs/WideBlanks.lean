import Offside.Proofs.Build
import Offside.Proofs.Concatenation
import Offside.Proofs.Failure
import Offside.Proofs.HighlightPlaces
import Offside.Proofs.StartTags

/-!
# Wide blanks in outputs

Not every output can be highlighted. The keys of attributes are copied from the source as they are,
and a key may hold a blank of several bytes, say a no-break space. Then the highlighter would have
to cut within that blank (`Renderer.not_highlight_noBreakSpace`).

**`Renderer.highlight_output_iff`** says which outputs are refused. The general criterion is the one
for any markup, `Highlight.WideKey`. The blank that is to blame always comes from a line of the
source, as nothing that a rendering writes of its own has one. Where the brackets of an output are
those of its tags, the lines can be told apart: a reader is outside of tags at the end of each
(`Renderer.after_markup`), so an output is refused if one of its lines is
(`Highlight.wideKey_unlines`), and only the start tags of tag lines can be. In such a tag each key
is read after the one space that is written before it, and what counts is the last blank of the key
(`Tag.wideKey_head_iff`).
-/

namespace Offside

theorem Text.exists_mem_of_unlines {c : Char} {lines : List Text} (h : c ∈ unlines lines)
    (hfeed : c ≠ '\n') : ∃ line ∈ lines, c ∈ line := by
  induction lines with
  | nil => exact absurd h List.not_mem_nil
  | cons line rest ih =>
    by_cases hrest : rest = []
    · rw [hrest, unlines, List.intercalate_singleton] at h
      exact ⟨line, List.mem_cons_self, h⟩
    · rw [unlines_cons hrest, List.mem_append, List.mem_cons, or_iff_right hfeed] at h
      obtain h | h := h
      · exact ⟨line, List.mem_cons_self, h⟩
      · obtain ⟨line', hline', hmem⟩ := ih h
        exact ⟨line', List.mem_cons_of_mem line hline', hmem⟩

namespace Highlight

/-! ### Keys after wide blanks, part by part -/

variable {t u : Text}

theorem wideKey_append (h : Place.outside.after t = .outside) (u : Text) :
    WideKey (t ++ u) ↔ WideKey t ∨ WideKey u := by
  rw [wideKey_iff, wideKey_iff, wideKey_iff, Place.firstWide_append, h, Option.isSome_or,
    Bool.or_eq_true]

theorem not_wideKey_of_free (h : '<' ∉ t) : ¬ WideKey t := by
  rw [wideKey_iff, (Place.outside_of_free h).2]
  exact Bool.false_ne_true

theorem not_wideKey_of_quoteless (h : '"' ∉ t) : ¬ WideKey t := by
  rw [wideKey_iff, Place.firstWide_of_quoteless h]
  exact Bool.false_ne_true

/-- What ends a tag adds no key to it. -/
theorem wideKey_append_of_quoteless (h : '"' ∉ u) (t : Text) : WideKey (t ++ u) ↔ WideKey t := by
  rw [wideKey_iff, wideKey_iff, Place.firstWide_append, Place.firstWide_of_quoteless h,
    Option.or_none]

/-- Text without an opening bracket, such as indentation, changes nothing in front of markup. -/
theorem free_append (h : '<' ∉ t) (u : Text) :
    Place.outside.after (t ++ u) = Place.outside.after u ∧ (WideKey (t ++ u) ↔ WideKey u) := by
  obtain ⟨hafter, -⟩ := Place.outside_of_free h
  refine ⟨by rw [Place.after_append, hafter], ?_⟩
  rw [wideKey_append hafter, or_iff_right (not_wideKey_of_free h)]

theorem of_indented {text line : Text} (h : Indented text line) :
    Place.outside.after line = Place.outside.after text ∧ (WideKey line ↔ WideKey text) := by
  obtain ⟨width, rfl⟩ := h
  refine free_append ?_ text
  intro hmem
  exact absurd (List.eq_of_mem_replicate hmem) (by decide)

/-- **Lines are read one by one** if no tag reaches over the end of a line. -/
theorem wideKey_unlines {lines : List Text}
    (h : ∀ line ∈ lines, Place.outside.after line = .outside) :
    WideKey (Text.unlines lines) ↔ ∃ line ∈ lines, WideKey line := by
  induction lines with
  | nil =>
    refine ⟨fun hwide => absurd hwide (not_wideKey_of_free List.not_mem_nil), ?_⟩
    rintro ⟨line, hline, -⟩
    exact absurd hline List.not_mem_nil
  | cons line rest ih =>
    have hline := h line List.mem_cons_self
    have hrest := ih fun next hnext => h next (List.mem_cons_of_mem line hnext)
    rw [List.exists_mem_cons_iff]
    cases rest with
    | nil =>
      rw [Text.unlines, List.intercalate_singleton]
      simp
    | cons next others =>
      -- The line feed is outside of tags, like the end of the line before it.
      have hfeed := (free_append (t := ['\n']) (by decide) (Text.unlines (next :: others))).2
      rw [Text.unlines_cons (List.cons_ne_nil next others), wideKey_append hline, ← hrest]
      exact or_congr Iff.rfl hfeed

/-! ### Attributes -/

/-- The last blank of a key is one of several bytes. -/
def EndsWide (key : Text) : Prop :=
  ∃ lead blank rest, key = lead ++ blank :: rest ∧ isBlank blank = true ∧
    blank.utf8Size ≠ 1 ∧ ∀ c ∈ rest, isBlank c = false

/-- After a space, the blank that a reader remembers at the end of a key is one of several bytes if
the last blank of the key is. -/
theorem isSome_wide?_lastBlank_iff (key : Text) :
    ((Place.key (Place.lastBlank (some ' ') key) true).wide? '"').isSome = true ↔
      EndsWide key := by
  rw [Place.isSome_wide?_iff]
  constructor
  · rintro ⟨blank, hplace, -, hsize⟩
    have hblank : Place.lastBlank (some ' ') key = some blank := (Place.key.inj hplace).1
    obtain ⟨hfree, -⟩ | ⟨lead, last, rest, rfl, hlast, hrest, -⟩ := splitKey_cases key
    · -- Without a blank of its own the key stands after the space.
      rw [Place.lastBlank_of_free hfree] at hblank
      obtain rfl := Option.some.inj hblank
      exact absurd rfl hsize
    · rw [Place.lastBlank_append hlast hrest] at hblank
      obtain rfl := Option.some.inj hblank
      exact ⟨lead, last, rest, rfl, hlast, hsize, hrest⟩
  · rintro ⟨lead, blank, rest, rfl, hblank, hsize, hrest⟩
    exact ⟨blank, by rw [Place.lastBlank_append hblank hrest], rfl, hsize⟩

/-- **One attribute.** A reader who has come to the blank before it, be it after the name or after
another attribute, stands among the keys after it. -/
theorem read_assignment {place : Place} {key value : Text}
    (hplace : place.next ' ' = .key (some ' ') false)
    (hclose : '>' ∉ Fragment.assignment key value) (hcut : cutAssignment key = none) :
    place.after (Fragment.assignment key value) = .key none false ∧
      ((place.firstWide (Fragment.assignment key value)).isSome = true ↔ EndsWide key) := by
  have hparts : Fragment.assignment key value =
      [' '] ++ (key ++ '=' :: '"' :: (Fragment.escape value ++ ['"'])) := by
    simp [Fragment.assignment]
  rw [hparts] at hclose ⊢
  simp only [List.mem_append, List.mem_cons, not_or] at hclose
  obtain ⟨-, hkey, -, -, hvalue, -⟩ := hclose
  have hquote := Fragment.quote_notMem_escape value
  have hstart : false = true → key.head? ≠ some '"' := fun hset => absurd hset Bool.false_ne_true
  -- The space, the key, the two characters that begin the value, the value, and its last quote.
  obtain ⟨assigns, hafter⟩ := Place.after_key (some ' ') hkey hcut hstart
  have hspace : place.after [' '] = .key (some ' ') false := hplace
  have hclosed : Place.value.after (Fragment.escape value ++ ['"']) = .key none false := by
    rw [Place.after_append, Place.value_of_free hvalue hquote]
    rfl
  have hnone : Place.value.firstWide (Fragment.escape value ++ ['"']) = none := by
    rw [Place.firstWide_append, Place.firstWide_of_quoteless hquote,
      Place.value_of_free hvalue hquote]
    rfl
  constructor
  · rw [Place.after_append, hspace, Place.after_append, hafter]
    exact hclosed
  · rw [Place.firstWide_append, Place.firstWide_of_quoteless (by decide), hspace,
      Place.firstWide_append, hafter, Place.firstWide_assignment, hnone,
      Place.firstWide_key _ (fun hmem => hkey (List.mem_of_mem_dropLast hmem)) hcut hstart,
      Option.none_or, Option.none_or, Option.or_none]
    exact isSome_wide?_lastBlank_iff key

/-- **All attributes of a tag,** one after the other. -/
theorem isSome_firstWide_assignments_iff {place : Place} {attributes : List (Text × Text)}
    (hplace : place.next ' ' = .key (some ' ') false)
    (h : ∀ a ∈ attributes, '>' ∉ Fragment.assignment a.1 a.2 ∧ cutAssignment a.1 = none) :
    (place.firstWide (attributes.flatMap fun a => Fragment.assignment a.1 a.2)).isSome = true ↔
      ∃ a ∈ attributes, EndsWide a.1 := by
  induction attributes generalizing place with
  | nil =>
    refine ⟨fun hsome => absurd hsome Bool.false_ne_true, ?_⟩
    rintro ⟨a, ha, -⟩
    exact absurd ha List.not_mem_nil
  | cons a rest ih =>
    obtain ⟨hclose, hcut⟩ := h a List.mem_cons_self
    obtain ⟨hafter, hfirst⟩ := read_assignment hplace hclose hcut
    rw [List.flatMap_cons, Place.firstWide_append, hafter, Option.isSome_or, Bool.or_eq_true,
      hfirst, List.exists_mem_cons_iff]
    exact or_congr Iff.rfl (ih rfl fun b hb => h b (List.mem_cons_of_mem a hb))

end Highlight

open Highlight

/-! ### Tags -/

theorem Fragment.quote_notMem_closingTag {name : Text} (h : Tag.IsName name) :
    '"' ∉ closingTag name := by
  have hname : '"' ∉ name := fun hmem => absurd (h.2 '"' hmem) (by decide)
  simp [closingTag, hname]

theorem Fragment.utf8Size_of_mem_closingTag {name : Text} {c : Char} (h : Tag.IsName name)
    (hc : c ∈ closingTag name) : c.utf8Size = 1 := by
  simp only [closingTag, List.mem_append, List.mem_cons, List.not_mem_nil, or_false] at hc
  obtain ((rfl | rfl) | hc) | rfl := hc
  · rfl
  · rfl
  · obtain ⟨-, hhigh⟩ := Tag.printable_of_isNameChar (h.2 c hc)
    exact utf8Size_of_ascii (by omega)
  · rfl

namespace Tag

/-- **A start tag** without a closing bracket inside and without `="` in a key is refused if the
last blank of one of its keys is one of several bytes. -/
theorem wideKey_head_iff {tag : Tag} (hname : IsName tag.name) (hclose : '>' ∉ tag.assignments)
    (hkeys : ∀ a ∈ tag.written, cutAssignment a.1 = none) :
    WideKey tag.head ↔ ∃ a ∈ tag.written, EndsWide a.1 := by
  have hends : ∀ c ∈ tag.name, Highlight.endsName c = false := by
    intro c hc
    have hlayout := Layout.endsName_of_isNameChar (hname.2 c hc)
    simp only [Layout.endsName, Bool.or_eq_false_iff] at hlayout
    simp [Highlight.endsName, hlayout]
  have hassignments : ∀ a ∈ tag.written,
      '>' ∉ Fragment.assignment a.1 a.2 ∧ cutAssignment a.1 = none := by
    intro a ha
    exact ⟨fun hmem => hclose (List.mem_flatMap.mpr ⟨a, ha, hmem⟩), hkeys a ha⟩
  obtain ⟨hafter, hnone⟩ := Place.name_of_free hends
  calc WideKey tag.head
    _ ↔ (Place.name.firstWide (tag.name ++ tag.assignments)).isSome = true := wideKey_iff _
    _ ↔ (Place.name.firstWide tag.assignments).isSome = true := by
      rw [Place.firstWide_append, hafter, hnone, Option.none_or]
    _ ↔ ∃ a ∈ tag.written, EndsWide a.1 := isSome_firstWide_assignments_iff rfl hassignments

/-- A fragment is refused for its start tag only, if its content has no tags of its own. -/
theorem wideKey_fragment_iff {tag : Tag} (hname : IsName tag.name)
    (hfree : ∀ content ∈ tag.content, '<' ∉ content) (style : VoidStyle) :
    WideKey (tag.fragment style).html ↔ WideKey tag.head := by
  obtain ⟨-, hvoid⟩ | ⟨-, content, hcontent, hinline⟩ | ⟨-, -, hopening⟩ :=
    fragment_cases style tag
  · have hquote : '"' ∉ style.terminator := by cases style <;> decide
    rw [hvoid]
    exact wideKey_append_of_quoteless hquote tag.head
  · have hclosing : ¬ WideKey (Fragment.closingTag tag.name) :=
      not_wideKey_of_quoteless (Fragment.quote_notMem_closingTag hname)
    have hnone := not_wideKey_of_free (hfree content hcontent)
    -- The reader is outside after the bracket, and stays there up to the closing tag.
    have hhead := Place.after_bracket .outside tag.head
    have hbetween : Place.outside.after (tag.head ++ ['>'] ++ content) = .outside := by
      rw [Place.after_append, hhead, (Place.outside_of_free (hfree content hcontent)).1]
    rw [hinline]
    show WideKey (tag.head ++ ['>'] ++ content ++ Fragment.closingTag tag.name) ↔ _
    rw [wideKey_append hbetween, wideKey_append hhead, wideKey_append_of_quoteless (by decide),
      or_iff_left hclosing, or_iff_left hnone]
  · rw [hopening]
    exact wideKey_append_of_quoteless (by decide) tag.head

end Tag

namespace Renderer

open Outline

variable {r : Renderer} {source : Text} {rendered : Rendered}

/-! ### Lines -/

/-- **No tag reaches over the end of a line** whose content has no opening bracket. -/
theorem after_markup {line : Line} (hfree : '<' ∉ line.content) :
    Place.outside.after (r.markup line) = .outside := by
  by_cases htag : line.kind = .tag
  · obtain ⟨inside, hinside⟩ := Tag.exists_fragment_html r.options.voidStyle
      (Tag.read r.table line.content).tag
    rw [markup_of_tag htag, fragment, hinside, ← List.cons_append]
    exact Place.after_bracket .outside ('<' :: inside)
  · rw [markup_of_not_tag htag]
    exact (Place.outside_of_free hfree).1

theorem wideKey_markup_iff {line : Line} (hfree : '<' ∉ line.content) :
    WideKey (r.markup line) ↔
      line.kind = .tag ∧ WideKey (Tag.read r.table line.content).tag.head := by
  by_cases htag : line.kind = .tag
  · have hcontent : ∀ content ∈ (Tag.read r.table line.content).tag.content, '<' ∉ content :=
      fun content hmem hopen =>
        hfree ((Tag.within_read r.table line.content).content content hmem hopen)
    rw [markup_of_tag htag, fragment,
      Tag.wideKey_fragment_iff (Tag.isName_read r.table line.content) hcontent]
    exact (and_iff_right htag).symm
  · rw [markup_of_not_tag htag]
    exact iff_of_false (not_wideKey_of_free hfree) fun hboth => htag hboth.1

/-- What a line without an opening bracket writes: nothing that reaches over its end, and nothing to
blame but its start tag. -/
theorem Writes.reads {line : Line} {e : Entry} (h : r.Writes line e)
    (hfree : '<' ∉ line.content) :
    Place.outside.after e.line.text = .outside ∧
      (WideKey e.line.text →
        line.kind = .tag ∧ WideKey (Tag.read r.table line.content).tag.head) := by
  cases h with
  | opens _ around => exact ⟨after_markup hfree, (wideKey_markup_iff hfree).mp⟩
  | stands _ around => exact ⟨after_markup hfree, (wideKey_markup_iff hfree).mp⟩
  | closes _ around =>
    -- A closing tag has no quotes, so no value begins in it.
    refine ⟨Place.after_bracket .outside _, fun hwide => ?_⟩
    exact absurd hwide
      (not_wideKey_of_quoteless (Fragment.quote_notMem_closingTag (isName_fragment line)))

/-! ### Outputs -/

/-- Placing lines changes nothing about them that indentation does not change. -/
theorem placed_iff {P : Text → Prop} {entries : List Entry} {placed : List Text}
    (hP : ∀ text line, Indented text line → (P line ↔ P text))
    (h : List.Forall₂ (fun e p => Indented e.line.text p) entries placed) :
    ((∀ p ∈ placed, P p) ↔ ∀ e ∈ entries, P e.line.text) ∧
      ((∃ p ∈ placed, P p) ↔ ∃ e ∈ entries, P e.line.text) := by
  induction h with
  | nil => simp
  | @cons e p entries placed hindented _ ih =>
    have hfirst := hP e.line.text p hindented
    constructor
    · rw [List.forall_mem_cons, List.forall_mem_cons, hfirst, ih.1]
    · rw [List.exists_mem_cons_iff, List.exists_mem_cons_iff, hfirst, ih.2]

/-- **An output is refused for the start tags of its tag lines,** if the source has no opening
brackets. -/
theorem wideKey_output_iff (h : r.render source = .ok rendered) (hfree : '<' ∉ source) :
    WideKey rendered.output ↔ ∃ line ∈ significant source,
      line.kind = .tag ∧ WideKey (Tag.read r.table line.content).tag.head := by
  have hlines : ∀ line ∈ significant source, '<' ∉ line.content := fun line hline hmem =>
    hfree ((of_mem_significant hline).2 hmem)
  have hafter : ∀ e ∈ r.history (significant source),
      Place.outside.after e.line.text = .outside := by
    intro e he
    obtain ⟨line, hline, hwrites⟩ := exists_writes he
    exact (hwrites.reads (hlines line hline)).1
  obtain ⟨placed, hout, hindented⟩ := exists_output h
  have hplaced : ∀ p ∈ placed, Place.outside.after p = .outside :=
    (placed_iff (fun _ _ hline => by rw [(of_indented hline).1]) hindented).1.mpr hafter
  rw [hout, wideKey_unlines hplaced,
    (placed_iff (fun _ _ hline => (of_indented hline).2) hindented).2]
  constructor
  · rintro ⟨e, he, hwide⟩
    obtain ⟨line, hline, hwrites⟩ := exists_writes he
    exact ⟨line, hline, (hwrites.reads (hlines line hline)).2 hwide⟩
  · rintro ⟨line, hline, hwide⟩
    -- The line that is to blame has written its markup, among whatever else is written.
    obtain ⟨e, he, heq⟩ := exists_mem_history (r := r) hline {}
    refine ⟨e, he, ?_⟩
    rw [heq]
    exact (wideKey_markup_iff (hlines line hline)).mpr hwide

/-- What a line writes of its own has only characters of one byte. -/
theorem Writes.mem_content {line : Line} {e : Entry} {c : Char} (h : r.Writes line e)
    (hc : c ∈ e.line.text) (hsize : c.utf8Size ≠ 1) : c ∈ line.content := by
  have hown : ((Tag.punctuation ++ Tag.brackets).all fun d => d.utf8Size = 1) = true := by decide
  have hmarkup : c ∈ r.markup line → c ∈ line.content := by
    intro hmem
    have hmem := markup_subset line hmem
    rw [List.append_assoc] at hmem
    refine (List.mem_append.mp hmem).resolve_right fun hmem => hsize ?_
    exact of_decide_eq_true (List.all_eq_true.mp hown c hmem)
  cases h with
  | opens _ around => exact hmarkup hc
  | stands _ around => exact hmarkup hc
  | closes _ around =>
    exact absurd (Fragment.utf8Size_of_mem_closingTag (isName_fragment line) hc) hsize

/-- **Nothing of several bytes is added.** Such a character of an output comes from a line. -/
theorem exists_mem_content {c : Char} (h : r.render source = .ok rendered)
    (hc : c ∈ rendered.output) (hsize : c.utf8Size ≠ 1) :
    ∃ line ∈ significant source, c ∈ line.content := by
  have hindent : ∀ text line, Indented text line → (c ∈ line ↔ c ∈ text) := by
    rintro text line ⟨width, rfl⟩
    refine List.mem_append.trans (or_iff_right fun hmem => hsize ?_)
    rw [List.eq_of_mem_replicate hmem]
    rfl
  obtain ⟨placed, hout, hindented⟩ := exists_output h
  rw [hout] at hc
  have hfeed : c ≠ '\n' := by
    rintro rfl
    exact hsize rfl
  obtain ⟨e, he, hmem⟩ := (placed_iff hindent hindented).2.mp (Text.exists_mem_of_unlines hc hfeed)
  obtain ⟨line, hline, hwrites⟩ := exists_writes he
  exact ⟨line, hline, hwrites.mem_content hmem hsize⟩

end Renderer

/-! ### The command that highlights -/

namespace Cli

/-- An action goes on from where its first step leads. -/
theorem Action.run_bind_of_leads {α β : Type} {x : Action α} {s s' : Session} {a : α}
    (h : Leads x s s' a) (f : α → Action β) : (x >>= f).run.run s = (f a).run.run s' := by
  rw [run_bind, show x.run.run s = (.ok a, s') from h]

theorem Action.exists_leads_forM_complain {γ : Type} (f : γ → Text) (xs : List γ) (s : Session) :
    ∃ s', Leads (xs.forM fun x => complain (f x)) s s' () := by
  induction xs generalizing s with
  | nil => exact ⟨s, rfl⟩
  | cons x xs ih =>
    obtain ⟨s', hrest⟩ := ih { s with errors := s.errors.push (f x) }
    exact ⟨s', leads_bind.mpr ⟨(), _, rfl, hrest⟩⟩

/-- A dash stands for the standard input, which is read to its end. -/
theorem Action.leads_readSource {s : Session} {text : String}
    (h : String.fromUTF8? s.input = some text) :
    Leads (readSource ['-']) s { s with input := .empty } text.toList := by
  have hget : Leads get s s s := rfl
  show (readSource ['-']).run.run s = _
  rw [readSource, if_pos rfl, run_bind_of_leads hget]
  dsimp only
  rw [h]
  rfl

/-- Once a source is read and rendered, its highlighting decides whether the command is refused. -/
theorem refused_render_iff (coloured : Bool) (options : Options) {file text : Text}
    {s s' : Session} {rendered : Rendered} (hread : Action.Leads (Action.readSource file) s s' text)
    (hrender : (Renderer.mk options .html).render text = .ok rendered) :
    ((render coloured options file none true).run.run s).1 = .error .refused ↔
      ¬ ∃ painted, highlight coloured rendered.output = .ok painted := by
  obtain ⟨s'', hremarks⟩ := Action.exists_leads_forM_complain (remark file) rendered.diagnostics s'
  have hsettle : Action.Leads (settle file (.ok rendered)) s' s' rendered := rfl
  -- Reading, rendering and remarking come to their ends, and the highlighting is what is left.
  unfold render
  rw [Action.run_bind_of_leads hread, hrender, Action.run_bind_of_leads hsettle,
    Action.run_bind_of_leads hremarks]
  dsimp only [if_true]
  cases highlight coloured rendered.output with
  | ok painted =>
    refine iff_of_false ?_ fun hnone => hnone ⟨painted, rfl⟩
    intro h
    cases h
  | error e =>
    refine iff_of_true rfl ?_
    rintro ⟨painted, h⟩
    cases h

/-- A refusal is shown by the status. -/
theorem status_run_of_refused {coloured quiet : Bool} {arguments : List Text} {command : Command}
    {settings : Settings} {tree : FileTree} {input : ByteArray}
    (hrequest : Request.ofArguments arguments = .run quiet command)
    (hsettings : Settings.load tree = .ok settings)
    (h : ((perform coloured quiet settings command).run.run { tree, input }).1 =
      .error .refused) :
    (run coloured arguments tree input).status = 101 := by
  have hget : Action.Leads get ({ tree, input } : Session) { tree, input } { tree, input } := rfl
  have hexecute : (execute coloured quiet command).run.run { tree, input } =
      (perform coloured quiet settings command).run.run { tree, input } := by
    rw [execute, Action.run_bind_of_leads hget, hsettings]
  have hrun : run coloured arguments tree input = Session.outcome
      ((execute coloured quiet command).run.run { tree, input }).2
      ((execute coloured quiet command).run.run { tree, input }).1 := by
    rw [run, hrequest]
    rfl
  rw [hrun, hexecute, h]
  rfl

end Cli

namespace Renderer

/-- **Which outputs can be highlighted.** All but those in which a value begins after a key that
comes after a blank of several bytes, and a command that renders and highlights is refused just for
these. The blank is one of the content of a significant line. If the source has no brackets and no
key has a `="` in it, what counts is the last blank of each key. -/
theorem highlight_output_iff (r : Renderer) (source : Text) (rendered : Rendered)
    (coloured : Bool) (h : r.render source = .ok rendered) :
    ((∃ text, highlight coloured rendered.output = .ok text) ↔ ¬ WideKey rendered.output) ∧
    (r.table = .html → ∀ file session session',
      Cli.Action.Leads (Cli.Action.readSource file) session session' source →
      (((Cli.render coloured r.options file none true).run.run session).1 = .error .refused ↔
        WideKey rendered.output)) ∧
    (∀ e, highlight coloured rendered.output = .error e → ∃ line ∈ significant source,
      e.blank ∈ line.content ∧ isBlank e.blank = true ∧ e.blank.utf8Size ≠ 1) ∧
    ('<' ∉ source → '>' ∉ source →
      (∀ line ∈ significant source, line.kind = .tag →
        ∀ a ∈ (Tag.read r.table line.content).tag.written, cutAssignment a.1 = none) →
      ((∃ text, highlight coloured rendered.output = .ok text) ↔
        ∀ line ∈ significant source, line.kind = .tag →
          ∀ a ∈ (Tag.read r.table line.content).tag.written, ¬ EndsWide a.1)) := by
  refine ⟨exists_highlight_iff coloured rendered.output, ?_, ?_, ?_⟩
  · rintro htable file session session' hread
    obtain ⟨options, table⟩ := r
    obtain rfl : table = .html := htable
    rw [Cli.refused_render_iff coloured options hread h, exists_highlight_iff, not_not]
  · intro e he
    obtain ⟨hmem, hblank, hsize⟩ := wide_of_error he
    obtain ⟨line, hline, hcontent⟩ := exists_mem_content h hmem hsize
    exact ⟨line, hline, hcontent, hblank, hsize⟩
  · intro hopen hclose hkeys
    have hhead : ∀ line ∈ significant source, line.kind = .tag →
        (WideKey (Tag.read r.table line.content).tag.head ↔
          ∃ a ∈ (Tag.read r.table line.content).tag.written, EndsWide a.1) := by
      intro line hline htag
      refine Tag.wideKey_head_iff (Tag.isName_read r.table line.content) ?_ (hkeys line hline htag)
      -- What is written inside the tag comes from the line or is punctuation.
      intro hmem
      have hwithin := Tag.within_read r.table line.content
      refine (List.mem_append.mp (Tag.assignments_subset hwithin hmem)).elim ?_ (by decide)
      exact fun hcontent => hclose ((of_mem_significant hline).2 hcontent)
    rw [exists_highlight_iff, wideKey_output_iff h hopen]
    constructor
    · intro hnone line hline htag a ha hwide
      exact hnone ⟨line, hline, htag, (hhead line hline htag).mpr ⟨a, ha, hwide⟩⟩
    · rintro hnone ⟨line, hline, htag, hwide⟩
      obtain ⟨a, ha, hends⟩ := (hhead line hline htag).mp hwide
      exact hnone line hline htag a ha hends

/-- Wide blanks that do no harm: one in a key with a space after it, and one in a plain line. -/
def spaced : Text :=
  "%a\x7bx\u00a0y z: 1\x7d\n  b\u3000c".toList

theorem highlight_output_iff_spaced :
    Renderer.render {} spaced =
      .ok ⟨"<a x\u00a0y z=\"1\">\n  b\u3000c\n</a>".toList, []⟩ ∧
    '<' ∉ spaced ∧ '>' ∉ spaced ∧
    ¬ WideKey "<a x\u00a0y z=\"1\">\n  b\u3000c\n</a>".toList ∧
    ∃ text, highlight true "<a x\u00a0y z=\"1\">\n  b\u3000c\n</a>".toList = .ok text := by
  have hrender : Renderer.render {} spaced =
      .ok ⟨"<a x\u00a0y z=\"1\">\n  b\u3000c\n</a>".toList, []⟩ := by
    cbv
  have hopen : '<' ∉ spaced := by decide
  have hclose : '>' ∉ spaced := by decide
  have hlines : significant spaced =
      [⟨0, "%a\x7bx\u00a0y z: 1\x7d".toList⟩, ⟨1, "  b\u3000c".toList⟩] := by
    cbv
  have hwritten : (Tag.read .html "%a\x7bx\u00a0y z: 1\x7d".toList).tag.written =
      [("x\u00a0y z".toList, ['1'])] := by
    cbv
  have hcontent : Line.content ⟨0, "%a\x7bx\u00a0y z: 1\x7d".toList⟩ =
      "%a\x7bx\u00a0y z: 1\x7d".toList := by
    cbv
  have hplain : Line.kind ⟨1, "  b\u3000c".toList⟩ ≠ .tag := by decide
  -- Of the two lines the first is a tag line, and its one key ends in a space and a letter.
  have hall : ∀ P : Text → Prop, P "x\u00a0y z".toList → ∀ line ∈ significant spaced,
      line.kind = .tag → ∀ a ∈ (Tag.read .html line.content).tag.written, P a.1 := by
    intro P hP
    rw [hlines, List.forall_mem_cons, List.forall_mem_singleton]
    refine ⟨fun _ => ?_, fun htag => absurd htag hplain⟩
    rw [hcontent, hwritten]
    exact List.forall_mem_singleton.mpr hP
  have hends : ¬ EndsWide "x\u00a0y z".toList := by
    rw [← isSome_wide?_lastBlank_iff]
    decide
  obtain ⟨hreturns, -, -, hkeys⟩ := highlight_output_iff {} spaced _ true hrender
  have hok := (hkeys hopen hclose (hall (cutAssignment · = none) rfl)).mpr
    (hall (fun key => ¬ EndsWide key) hends)
  exact ⟨hrender, hopen, hclose, hreturns.mp hok, hok⟩

/-- **A no-break space in a key stops the highlighter.** The output is as it should be, and the
command that should show it ends with status 101. -/
theorem not_highlight_noBreakSpace :
    Renderer.render {} "%a\x7bx\u00a0y: 1\x7d z".toList =
      .ok ⟨"<a x\u00a0y=\"1\">z</a>".toList, []⟩ ∧
    WideKey "<a x\u00a0y=\"1\">z</a>".toList ∧
    ∀ coloured, highlight coloured "<a x\u00a0y=\"1\">z</a>".toList = .error ⟨'\u00a0'⟩ ∧
      (Cli.run coloured ["render".toList, "-".toList, "--highlight".toList] {}
        "%a\x7bx\u00a0y: 1\x7d z".toUTF8).status = 101 := by
  have hrender : Renderer.render {} "%a\x7bx\u00a0y: 1\x7d z".toList =
      .ok ⟨"<a x\u00a0y=\"1\">z</a>".toList, []⟩ := by
    cbv
  refine ⟨hrender, by decide, fun coloured => ?_⟩
  have hrefused : highlight coloured "<a x\u00a0y=\"1\">z</a>".toList = .error ⟨'\u00a0'⟩ := by
    cbv
  refine ⟨hrefused, ?_⟩
  have hrequest : Cli.Request.ofArguments ["render".toList, "-".toList, "--highlight".toList] =
      .run false (.render ['-'] {} none true) := rfl
  have hsettings : Settings.load {} = .ok {} := by
    have hnone : FileTree.exists? {} Settings.file = false := by cbv
    rw [Settings.load, hnone]
    rfl
  have hinput : String.fromUTF8? "%a\x7bx\u00a0y: 1\x7d z".toUTF8 =
      some "%a\x7bx\u00a0y: 1\x7d z" := by
    cbv
  have hcommand := Cli.refused_render_iff coloured {}
    (Cli.Action.leads_readSource (s := ⟨{}, "%a\x7bx\u00a0y: 1\x7d z".toUTF8, #[], #[]⟩) hinput)
    hrender
  refine Cli.status_run_of_refused hrequest hsettings (hcommand.mpr ?_)
  rintro ⟨painted, hpainted⟩
  rw [hrefused] at hpainted
  cases hpainted

end Renderer

end Offside
