import Offside.Proofs.JsonOrder
import Offside.Proofs.WideBlanks

/-!
# The records of tag lines

Two commands go through the same source. The one renders it, and gives each tag line to the outline
with its number, its width and the fragment of its tag (`Renderer.filter_calls`). The other shows
the tag lines, one record a line. They agree on which lines these are and on what each of them says
(`Cli.parse_shows_tags`): whoever reads the records back has the tags of the rendering, whatever
characters are in them, and only the order of the attributes is lost.

The record of a line is read back by its keys, since nothing that asks for fields can tell that they
were put in order (`Cli.shows_tagRecord`). And it takes one line, so the printed text falls into the
records again.
-/

namespace Offside

/-! ### Tags on their way to the outline -/

/-- A tag as a document places it: the number of its line, counted from one, the width of the line,
and the tag itself. -/
structure PlacedTag where
  number : Nat
  indent : Nat
  tag : Tag

/-- The tag is that of a line of the source, by its number, its width and its content. -/
def PlacedTag.StandsIn (table : VoidTable) (source : Text) (placed : PlacedTag) : Prop :=
  ∃ number raw, placed.number = number + 1 ∧
    (Text.lines (Text.unifyNewlines source))[number]? = some raw ∧
    placed.indent = (Text.leading raw).length ∧
    placed.tag = (Tag.read table (Text.trim raw)).tag

/-- The same tag, but for the order of its attributes. -/
structure Tag.Reordered (tag tag' : Tag) : Prop where
  attributes : tag'.attributes.entries.Perm tag.attributes.entries
  others : { tag' with attributes := tag.attributes } = tag

/-- The call adds a fragment. -/
def Outline.Call.isAddition : Outline.Call → Bool
  | .add _ _ _ => true
  | _ => false

namespace Renderer

/-- The tags of a document, in order. -/
def placedTags (r : Renderer) (lines : List Line) : List PlacedTag :=
  (lines.filter fun line => line.kind = .tag).map fun line =>
    ⟨line.number + 1, line.indent, (Tag.read r.table line.content).tag⟩

/-- **The fragments that a document adds to its outline are those of its tags,** each with the
number and the width of its line. -/
theorem filter_calls (r : Renderer) (lines : List Line) :
    (r.calls lines).filter Outline.Call.isAddition = (r.placedTags lines).map fun placed =>
      .add placed.number placed.indent (placed.tag.fragment r.options.voidStyle) := by
  induction lines with
  | nil => rfl
  | cons line lines ih =>
    -- Closing by width adds nothing, and neither does a plain line.
    rw [calls_cons, List.filter_cons_of_neg (by simp [Outline.Call.isAddition])]
    unfold addition placedTags at *
    by_cases htag : line.kind = .tag
    · rw [if_pos htag, List.filter_cons_of_pos rfl, ih,
        List.filter_cons_of_pos (by simp [htag])]
      rfl
    · rw [if_neg htag, List.filter_cons_of_neg (by simp [Outline.Call.isAddition]), ih,
        List.filter_cons_of_neg (by simp [htag])]

theorem standsIn_of_mem_placedTags {r : Renderer} {source : Text} {placed : PlacedTag}
    (h : placed ∈ r.placedTags (significant source)) : placed.StandsIn r.table source := by
  obtain ⟨line, hline, rfl⟩ := List.mem_map.mp h
  have hsource := (List.mem_filter.mp (List.mem_filter.mp hline).1).1
  obtain ⟨⟨raw, number⟩, hraw, rfl⟩ := List.mem_map.mp hsource
  exact ⟨number, raw, rfl, List.mem_zipIdx_iff_getElem?.mp hraw, rfl, rfl⟩

theorem filter_tag_significant (source : Text) :
    ((significant source).filter fun line => line.kind = .tag) =
      (Line.ofSource source).filter fun line => line.kind = .tag := by
  rw [significant, List.filter_filter]
  refine List.filter_congr ?_
  intro line _
  unfold Line.isSignificant
  cases line.kind <;> rfl

end Renderer

namespace Cli

/-! ### One record -/

/-- The text shows a tag: it is one line, and an object in which the number, the width and the tag
are found, the attributes perhaps in another order. -/
structure Shows (shown : Text) (placed : PlacedTag) : Prop where
  feed_notMem : '\n' ∉ shown
  record : ∃ value spec tag, Json.parse? shown = some value ∧
    value.objectFields? ["line".toList, "indent".toList, "spec".toList] =
      some [some (.ofNat placed.number), some (.ofNat placed.indent), some spec] ∧
    Tag.ofJson? spec = some tag ∧ placed.tag.Reordered tag

/-- **The record of a line shows its tag.** -/
theorem shows_tagRecord (line : Line) :
    Shows (tagRecord line).write
      ⟨line.number + 1, line.indent, (Tag.read .html line.content).tag⟩ := by
  let fields : List (String × Option Json) := [("line", some (.ofNat (line.number + 1))),
    ("indent", some (.ofNat line.indent)), ("spec", some (Tag.read .html line.content).tag.toJson)]
  have hrecord : tagRecord line = (Json.sparse fields).sorted := rfl
  have hlegible : (tagRecord line).IsLegible := by
    rw [hrecord]
    refine Json.isLegible_sorted (Json.isLegible_sparse ?_)
    intro value hvalue
    simp only [fields, List.map_cons, List.map_nil, List.mem_cons, Option.some.injEq,
      List.not_mem_nil, or_false] at hvalue
    rcases hvalue with rfl | rfl | rfl
    · exact Json.isLegible_ofNat _
    · exact Json.isLegible_ofNat _
    · exact Tag.isLegible_toJson _
  have hfields : (Json.sparse fields).objectFields? (fields.map fun field => field.1.toList) =
      some (fields.map Prod.snd) := Json.fields?_sparse (by simp [fields]) false
  constructor
  · intro hfeed
    exact absurd (Json.staysOnLine_write hlegible _ hfeed) (by decide)
  · refine ⟨tagRecord line, (Tag.read .html line.content).tag.toJson.sorted, _,
      Json.parse?_write hlegible, Json.objectFields?_sorted hfields,
      Tag.ofJson?_sorted (Tag.nodup_keys_read .html line.content), ?_⟩
    exact ⟨Attributes.perm_inOrder _, rfl⟩

/-! ### The command -/

/-- The text of a source, if it is UTF-8: a dash stands for the standard input. -/
def sourceText? (tree : FileTree) (input : ByteArray) (file : Text) : Option Text :=
  if file = ['-'] then (String.fromUTF8? input).map String.toList
  else tree.readText? (.ofText file)

namespace Action

theorem exists_leads_readSource {s : Session} {file text : Text}
    (h : sourceText? s.tree s.input file = some text) :
    ∃ input, Leads (readSource file) s { s with input } text := by
  unfold sourceText? at h
  split at h
  · rename_i hdash
    obtain ⟨decoded, hdecoded, rfl⟩ := Option.map_eq_some_iff.mp h
    exact ⟨.empty, hdash ▸ leads_readSource hdecoded⟩
  · rename_i hname
    refine ⟨s.input, ?_⟩
    have hget : Leads get s s s := rfl
    show (readSource file).run.run s = _
    rw [readSource, if_neg hname, run_bind_of_leads hget, h]
    rfl

theorem leads_forM_say {γ : Type} (f : γ → Text) (xs : List γ) (s : Session) :
    Leads (xs.forM fun x => say (f x)) s
      { s with output := s.output ++ (xs.map f).toArray } () := by
  induction xs generalizing s with
  | nil =>
    rw [List.map_nil, Array.append_empty]
    rfl
  | cons x xs ih =>
    refine leads_bind.mpr ⟨(), _, rfl, ?_⟩
    have houtput : s.output ++ ((x :: xs).map f).toArray =
        s.output.push (f x) ++ (xs.map f).toArray := by
      apply Array.ext'
      simp
    rw [houtput]
    exact ih { s with output := s.output.push (f x) }

end Action

/-- What the command leaves behind: the records, and nothing else. -/
theorem run_parse (coloured : Bool) {quiet : Bool} {arguments : List Text} {tree : FileTree}
    {input : ByteArray} {file text : Text} {settings : Settings}
    (hrequest : Request.ofArguments arguments = .run quiet (.parse file))
    (hsettings : Settings.load tree = .ok settings)
    (hsource : sourceText? tree input file = some text) :
    run coloured arguments tree input =
      ⟨0, ((Line.ofSource text).filter fun line => line.kind = .tag).map fun line =>
        (tagRecord line).write, [], tree⟩ := by
  obtain ⟨left, hread⟩ := Action.exists_leads_readSource (s := { tree, input }) hsource
  have hshown := Action.leads_forM_say (fun line => (tagRecord line).write)
    ((Line.ofSource text).filter fun line => line.kind = .tag) { tree, input := left }
  have hleads : Action.Leads (perform coloured quiet settings (.parse file)) { tree, input } _ 0 :=
    Action.leads_bind.mpr ⟨text, _, hread, Action.leads_bind.mpr ⟨(), _, hshown, rfl⟩⟩
  rw [run_of_leads hrequest ((leads_execute_iff hsettings).mpr hleads)]
  simp [Session.outcome]

/-- Lines without line feeds are told apart in what is printed of them. -/
theorem splitOn_textOf {lines : List Text} (h : ∀ line ∈ lines, '\n' ∉ line) :
    List.splitOn '\n' (textOf lines).toList = lines ++ [[]] := by
  have htext : lines.flatMap (· ++ ['\n']) = ['\n'].intercalate (lines ++ [[]]) := by
    induction lines with
    | nil => rfl
    | cons line lines ih =>
      rw [List.flatMap_cons, ih fun l hl => h l (List.mem_cons_of_mem _ hl), List.cons_append]
      cases lines <;> simp [List.intercalate]
  rw [textOf, String.toList_ofList, htext]
  refine List.splitOn_intercalate '\n' ?_ (by simp)
  exact List.forall_mem_append.mpr ⟨h, List.forall_mem_singleton.mpr List.not_mem_nil⟩

/-- **The records show the tags that a rendering renders.** Whatever UTF-8 text the source is, the
command ends well, and what it prints is one line for each tag that the document places, in order.
Each line shows its tag: the number and the width with which any rendering adds the fragment of the
tag to its outline, and the tag of that fragment. These are the number of a line of the source, its
width, and what is read from it. -/
theorem parse_shows_tags (coloured quiet : Bool) (arguments : List Text) (tree : FileTree)
    (input : ByteArray) (file text : Text) (settings : Settings)
    (hrequest : Request.ofArguments arguments = .run quiet (.parse file))
    (hsettings : Settings.load tree = .ok settings)
    (hsource : sourceText? tree input file = some text) :
    (run coloured arguments tree input).status = 0 ∧
    List.splitOn '\n' (textOf (run coloured arguments tree input).output).toList =
      (run coloured arguments tree input).output ++ [[]] ∧
    ∀ r : Renderer, r.table = .html →
      List.Forall₂ Shows (run coloured arguments tree input).output
        (r.placedTags (Renderer.significant text)) ∧
      r.placedLines (Renderer.significant text) =
        .ok (Outline.run {} (r.calls (Renderer.significant text))).finish ∧
      (r.calls (Renderer.significant text)).filter Outline.Call.isAddition =
        ((r.placedTags (Renderer.significant text)).map fun placed =>
          .add placed.number placed.indent (placed.tag.fragment r.options.voidStyle)) ∧
      ∀ placed ∈ r.placedTags (Renderer.significant text), placed.StandsIn .html text := by
  have hrun := run_parse coloured hrequest hsettings hsource
  have hshows : ∀ r : Renderer, r.table = .html →
      List.Forall₂ Shows (run coloured arguments tree input).output
        (r.placedTags (Renderer.significant text)) := by
    intro r htable
    rw [hrun, Renderer.placedTags, Renderer.filter_tag_significant, htable,
      List.forall₂_map_left_iff, List.forall₂_map_right_iff, List.forall₂_same]
    exact fun line _ => shows_tagRecord line
  refine ⟨by rw [hrun], splitOn_textOf ?_, ?_⟩
  · rw [hrun, List.forall_mem_map]
    exact fun line _ => (shows_tagRecord line).feed_notMem
  · intro r htable
    refine ⟨hshows r htable, ?_, r.filter_calls _, ?_⟩
    · rw [Renderer.placedLines_eq, ← Renderer.run_calls]
    · rw [← htable]
      exact fun placed hplaced => Renderer.standsIn_of_mem_placedTags hplaced

/-- A control character and a line separator in values, keys that come out in another order, and
line ends of both kinds. -/
theorem parse_shows_tags_reordered :
    Settings.load {} = .ok {} ∧
      (run false ["parse".toList, "-".toList] {}
        "%a\x7bb: \"\x01\", a: 'y\u2028\"'\x7d x\r\n/ y\n\n  #m.k".toUTF8).status = 0 ∧
      List.Forall₂ Shows (run false ["parse".toList, "-".toList] {}
        "%a\x7bb: \"\x01\", a: 'y\u2028\"'\x7d x\r\n/ y\n\n  #m.k".toUTF8).output
        [⟨1, 0, ['a'], none, [], ⟨[(['b'], ['\x01']), (['a'], ['y', '\u2028', '"'])]⟩,
            some ['x'], false⟩,
         ⟨4, 2, "div".toList, some ['m'], [['k']], {}, none, false⟩] := by
  have hsettings : Settings.load {} = .ok {} := by
    have hnone : ({} : FileTree).exists? Settings.file = false := by cbv
    rw [Settings.load, hnone]
    rfl
  have hsource : sourceText? {} "%a\x7bb: \"\x01\", a: 'y\u2028\"'\x7d x\r\n/ y\n\n  #m.k".toUTF8
      "-".toList = some "%a\x7bb: \"\x01\", a: 'y\u2028\"'\x7d x\r\n/ y\n\n  #m.k".toList := by
    cbv
  have hplaced : Renderer.placedTags {} (Renderer.significant
      "%a\x7bb: \"\x01\", a: 'y\u2028\"'\x7d x\r\n/ y\n\n  #m.k".toList) =
      [⟨1, 0, ['a'], none, [], ⟨[(['b'], ['\x01']), (['a'], ['y', '\u2028', '"'])]⟩,
          some ['x'], false⟩,
       ⟨4, 2, "div".toList, some ['m'], [['k']], {}, none, false⟩] := by
    cbv
  have hrequest : Request.ofArguments ["parse".toList, "-".toList] =
      .run false (.parse "-".toList) := rfl
  obtain ⟨hstatus, -, hrendered⟩ :=
    parse_shows_tags false false _ {} _ _ _ {} hrequest hsettings hsource
  exact ⟨hsettings, hstatus, hplaced ▸ (hrendered {} rfl).1⟩

end Cli

end Offside
