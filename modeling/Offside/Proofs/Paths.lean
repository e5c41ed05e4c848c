import Offside.Proofs.Text
import Offside.Site

/-!
# The page of a source

The page of a source is found in four steps on paths: the directory of the sources is stripped off,
what is left is put below the output directory, the old extension is cut off the spelling, and the
new one is set. Each step is a law here, and together they say what the page is
(`Site.page_joinNames`): the names below the directory are the names below the output directory, and
only the last one changes, from `stem.old` or `stem` to `stem.html`. The one name with which this
fails is `..old`, since without its extension it is the parent directory.

So different sources have different pages.
-/

namespace Offside

namespace Path

/-- A name that something in a directory can have. -/
structure IsFileName (name : Text) : Prop where
  isStep : isStep name = true
  ne_parent : name ≠ ['.', '.']
  slash_notMem : '/' ∉ name

/-- The path ends in a name, and not in a segment that stays where it is or goes back up. -/
def EndsInName (p : Path) : Prop :=
  ∃ segments name, p.segments = segments ++ [name] ∧ isStep name = true ∧ name ≠ ['.', '.']

/-! ### Names and extensions -/

theorem splitExtension_of_notMem {name : Text} (h : '.' ∉ name) :
    splitExtension name = (name, none) := by
  have hfront : Text.dropTail (· != '.') name = [] := by
    rw [Text.dropTail, List.reverse_eq_nil_iff, List.dropWhile_eq_nil_iff]
    intro c hc
    exact bne_iff_ne.mpr fun hdot => h (hdot ▸ List.mem_reverse.mp hc)
  rw [splitExtension, hfront]

/-- A name is cut at its last dot, unless that is its first character. -/
theorem splitExtension_dot (stem : Text) {extension : Text} (h : '.' ∉ extension) :
    splitExtension (stem ++ '.' :: extension) =
      if stem = [] then ('.' :: extension, none) else (stem, some extension) := by
  -- Seen from its end, the name is a run without a dot, and then the dot.
  have hreverse : (stem ++ '.' :: extension).reverse =
      extension.reverse ++ ('.' :: stem.reverse) := by
    simp
  have hrun : ∀ c ∈ extension.reverse, (c != '.') = true := by
    intro c hc
    exact bne_iff_ne.mpr fun hdot => h (hdot ▸ List.mem_reverse.mp hc)
  have hstop : ∀ c ∈ ('.' :: stem.reverse).head?, (c != '.') = false :=
    Text.forall_head?_cons (p := fun c => (c != '.') = false) rfl _
  have hfront : Text.dropTail (· != '.') (stem ++ '.' :: extension) = stem ++ ['.'] := by
    rw [Text.dropTail, hreverse, Text.dropWhile_run hrun hstop, List.reverse_cons,
      List.reverse_reverse]
  have hback : Text.takeTail (· != '.') (stem ++ '.' :: extension) = extension := by
    rw [Text.takeTail, hreverse, Text.takeWhile_run hrun hstop, List.reverse_reverse]
  unfold splitExtension
  rw [hfront, hback]
  cases stem with
  | nil => rfl
  | cons c stem =>
    have hlong : c :: stem ++ ['.'] ≠ ['.'] := by simp
    show (if c :: stem ++ ['.'] = ['.'] then _ else _) = _
    rw [if_neg hlong, if_neg (List.cons_ne_nil c stem), List.dropLast_concat]

theorem eq_of_splitExtension {name stem extension : Text}
    (h : splitExtension name = (stem, some extension)) :
    name = stem ++ '.' :: extension ∧ stem ≠ [] ∧ '.' ∉ extension := by
  by_cases hdot : '.' ∈ name
  · obtain ⟨back, front, hname, hback⟩ :=
      List.eq_append_cons_of_mem (List.mem_reverse.mpr hdot)
    have hfree : '.' ∉ back.reverse := fun hmem => hback (List.mem_reverse.mp hmem)
    obtain rfl : name = front.reverse ++ '.' :: back.reverse := by
      rw [← List.reverse_reverse name, hname]
      simp
    rw [splitExtension_dot _ hfree] at h
    split at h
    · cases h
    · rename_i hstem
      cases h
      exact ⟨rfl, hstem, hfree⟩
  · rw [splitExtension_of_notMem hdot] at h
    cases h

/-- The stem of a name without an extension is the name. -/
theorem splitExtension_of_none {name stem : Text} (h : splitExtension name = (stem, none)) :
    stem = name := by
  unfold splitExtension at h
  split at h
  · cases h
    rfl
  · split at h
    · cases h
      rfl
    · cases h

theorem splitExtension_fst_ne_nil {name : Text} (h : name ≠ []) : (splitExtension name).1 ≠ [] := by
  rcases hsplit : splitExtension name with ⟨stem, extension⟩
  cases extension with
  | some extension => exact (eq_of_splitExtension hsplit).2.1
  | none =>
    rw [splitExtension_of_none hsplit]
    exact h

/-! ### The last segment -/

theorem trimSegments_of_isStep (segments : List Text) {name : Text} (h : isStep name = true) :
    trimSegments (segments ++ [name]) = segments ++ [name] := by
  rw [trimSegments, List.reverse_append, List.reverse_singleton, List.singleton_append,
    List.dropWhile_cons_of_neg (by simp [h]), List.reverse_cons, List.reverse_reverse]

theorem isStep_of_getLast?_trimSegments {segments : List Text} {name : Text}
    (h : (trimSegments segments).getLast? = some name) : isStep name = true := by
  rw [trimSegments, List.getLast?_reverse] at h
  have hhead := List.head?_dropWhile_not (fun s => !isStep s) segments.reverse
  rw [h] at hhead
  simpa using hhead

theorem fileName?_of_segments {p : Path} {segments : List Text} {name : Text}
    (hsegments : p.segments = segments ++ [name]) (hstep : isStep name = true) :
    p.fileName? = if name = ['.', '.'] then none else some name := by
  rw [fileName?, hsegments, trimSegments_of_isStep segments hstep, List.getLast?_concat]

theorem isStep_concat_dot {stem : Text} (h : stem ≠ []) (rest : Text) :
    isStep (stem ++ '.' :: rest) = true := by
  obtain ⟨c, stem, rfl⟩ := List.exists_cons_of_ne_nil h
  simp [isStep]

theorem setExtension_of_segments {p : Path} {segments : List Text} {name : Text}
    (hsegments : p.segments = segments ++ [name]) (hstep : isStep name = true)
    (hparent : name ≠ ['.', '.']) (extension : Text) :
    p.setExtension extension =
      ⟨p.anchor, segments ++ [(splitExtension name).1 ++ '.' :: extension]⟩ := by
  rw [setExtension, fileName?_of_segments hsegments hstep, if_neg hparent]
  simp only
  rw [hsegments, trimSegments_of_isStep segments hstep, List.dropLast_concat]

/-- The parent directory takes no extension. -/
theorem setExtension_of_parent {p : Path} {segments : List Text}
    (hsegments : p.segments = segments ++ [['.', '.']]) (extension : Text) :
    p.setExtension extension = p := by
  rw [setExtension, fileName?_of_segments hsegments rfl, if_pos rfl]

/-- What a path is spelled with before its segments. -/
def Anchor.lead : Anchor → List Text
  | .relative => []
  | .here => [['.']]
  | .root => [[]]

theorem toText_eq_intercalate {p : Path} (hne : p.segments ≠ []) :
    p.toText = ['/'].intercalate (p.anchor.lead ++ p.segments) := by
  obtain ⟨anchor, segments⟩ := p
  obtain ⟨s, segments, rfl⟩ := List.exists_cons_of_ne_nil hne
  cases anchor with
  | relative => rfl
  | root => simp [toText, Anchor.lead, List.intercalate]
  | here =>
    -- A slash before each segment is a slash between the dot and all of them.
    have hslashes : ∀ (first : Text) (rest : List Text),
        ['/'].intercalate (first :: rest) = first ++ rest.flatMap ('/' :: ·) := by
      intro first rest
      induction rest generalizing first with
      | nil => simp [List.intercalate]
      | cons next rest ih =>
        rw [List.intercalate_cons_cons, ih next, List.flatMap_cons]
        simp
    exact (hslashes ['.'] _).symm

/-- **A path is its spelling,** if it is one that a spelling can have: no slash in a segment, and
the first segment of a relative path leads somewhere. -/
theorem ofText_toText {p : Path} (hne : p.segments ≠ []) (hfree : ∀ s ∈ p.segments, '/' ∉ s)
    (hfirst : p.anchor = .relative → ∀ s ∈ p.segments.head?, isStep s = true) :
    ofText p.toText = p := by
  have hlead : ∀ s ∈ p.anchor.lead ++ p.segments, '/' ∉ s := by
    intro s hs
    rcases List.mem_append.mp hs with hs | hs
    · cases hanchor : p.anchor <;> simp_all [Anchor.lead]
    · exact hfree s hs
  have hsplit : List.splitOn '/' p.toText = p.anchor.lead ++ p.segments := by
    rw [toText_eq_intercalate hne]
    exact List.splitOn_intercalate '/' hlead (List.append_ne_nil_of_right_ne_nil _ hne)
  obtain ⟨anchor, segments⟩ := p
  obtain ⟨s, segments, rfl⟩ := List.exists_cons_of_ne_nil hne
  unfold ofText
  rw [hsplit]
  cases anchor with
  | root => rfl
  | here => rfl
  | relative =>
    have hstep := hfirst rfl s rfl
    simp only [Anchor.lead, List.nil_append]
    split <;> simp_all [isStep]

/-- The spelling of a path ends with its last segment, and nothing else depends on that. -/
theorem exists_toText_concat (anchor : Anchor) (segments : List Text) :
    ∃ front, ∀ name, toText ⟨anchor, segments ++ [name]⟩ = front ++ name := by
  have hfront : ∀ lead : List Text, ∃ front, ∀ name,
      ['/'].intercalate (lead ++ [name]) = front ++ name := by
    intro lead
    induction lead with
    | nil => exact ⟨[], fun name => List.intercalate_singleton⟩
    | cons first lead ih =>
      obtain ⟨front, hfront⟩ := ih
      refine ⟨first ++ ['/'] ++ front, ?_⟩
      intro name
      rw [List.cons_append, List.intercalate_cons_of_ne_nil (by simp), hfront]
      simp
  obtain ⟨front, hfront⟩ := hfront (anchor.lead ++ segments)
  refine ⟨front, ?_⟩
  intro name
  rw [toText_eq_intercalate (by simp), ← List.append_assoc, hfront]

/-- What is cut off the end of a spelling is cut off the last segment. -/
theorem take_toText_concat (anchor : Anchor) (segments : List Text) (name tail : Text) :
    (toText ⟨anchor, segments ++ [name ++ tail]⟩).take
        ((toText ⟨anchor, segments ++ [name ++ tail]⟩).length - tail.length) =
      toText ⟨anchor, segments ++ [name]⟩ := by
  obtain ⟨front, hfront⟩ := exists_toText_concat anchor segments
  have hlength : (front ++ name ++ tail).length - tail.length = (front ++ name).length := by
    rw [List.length_append, Nat.add_sub_cancel]
  rw [hfront, hfront, ← List.append_assoc, hlength, List.take_left]

/-- **A new extension takes the place of the old one.** Cut off its spelling, the old one leaves the
stem and its dot, and that is a name again unless it is two dots. -/
theorem withExtension_of_segments {anchor : Anchor} {segments : List Text} {name stem old : Text}
    (hfree : ∀ s ∈ segments ++ [name], '/' ∉ s)
    (hfirst : anchor = .relative → ∀ s ∈ (segments ++ [name]).head?, isStep s = true)
    (hname : IsFileName name) (hsplit : splitExtension name = (stem, some old)) (extension : Text) :
    withExtension ⟨anchor, segments ++ [name]⟩ extension =
      ⟨anchor, segments ++ [if stem = ['.'] then ['.', '.'] else stem ++ '.' :: extension]⟩ := by
  obtain ⟨rfl, hstem, hold⟩ := eq_of_splitExtension hsplit
  have hextension : extension? ⟨anchor, segments ++ [stem ++ '.' :: old]⟩ = some old := by
    rw [extension?, fileName?_of_segments rfl hname.isStep, if_neg hname.ne_parent,
      Option.bind_some, hsplit]
  -- Without the old extension the spelling is that of the path to the stem and its dot.
  have hcut : (toText ⟨anchor, segments ++ [stem ++ '.' :: old]⟩).take
      ((toText ⟨anchor, segments ++ [stem ++ '.' :: old]⟩).length - old.length) =
        toText ⟨anchor, segments ++ [stem ++ ['.']]⟩ := by
    rw [← take_toText_concat anchor segments (stem ++ ['.']) old, List.append_assoc,
      List.singleton_append]
  have hstep : isStep (stem ++ ['.']) = true := isStep_concat_dot hstem []
  have hspelled : ofText (toText ⟨anchor, segments ++ [stem ++ ['.']]⟩) =
      ⟨anchor, segments ++ [stem ++ ['.']]⟩ := by
    refine ofText_toText (by simp) ?_ ?_
    · intro s hs
      rcases List.mem_append.mp hs with hs | hs
      · exact hfree s (List.mem_append_left _ hs)
      · obtain rfl := List.mem_singleton.mp hs
        intro hslash
        rcases List.mem_append.mp hslash with hslash | hslash
        · exact hname.slash_notMem (List.mem_append_left _ hslash)
        · cases List.mem_singleton.mp hslash
    · intro hanchor s hs
      cases segments with
      | nil =>
        obtain rfl := Option.some.inj hs
        exact hstep
      | cons first segments => exact hfirst hanchor s hs
  rw [withExtension, hextension]
  simp only
  rw [hcut, hspelled]
  by_cases hdots : stem = ['.']
  · subst hdots
    rw [if_pos rfl]
    exact setExtension_of_parent (p := ⟨anchor, segments ++ [['.', '.']]⟩) rfl extension
  · have hparent : stem ++ ['.'] ≠ ['.', '.'] := fun h =>
      hdots (List.append_inj_left' (h.trans (rfl : _ = ['.'] ++ ['.'])) rfl)
    rw [if_neg hdots, setExtension_of_segments rfl hstep hparent,
      splitExtension_dot stem List.not_mem_nil, if_neg hstem]

/-- The same for a name with an extension or without one. -/
theorem withExtension_of_name {anchor : Anchor} {segments : List Text} {name : Text}
    (hfree : ∀ s ∈ segments ++ [name], '/' ∉ s)
    (hfirst : anchor = .relative → ∀ s ∈ (segments ++ [name]).head?, isStep s = true)
    (hname : IsFileName name) (extension : Text) :
    withExtension ⟨anchor, segments ++ [name]⟩ extension =
      ⟨anchor, segments ++ [if (splitExtension name).1 = ['.'] then ['.', '.']
        else (splitExtension name).1 ++ '.' :: extension]⟩ := by
  rcases hsplit : splitExtension name with ⟨stem, old⟩
  cases old with
  | some old => exact withExtension_of_segments hfree hfirst hname hsplit extension
  | none =>
    -- The spelling is not cut, and the name is no dot.
    obtain rfl := splitExtension_of_none hsplit
    have hdot : stem ≠ ['.'] := by
      rintro rfl
      cases hname.isStep
    have hnone : extension? ⟨anchor, segments ++ [stem]⟩ = none := by
      rw [extension?, fileName?_of_segments rfl hname.isStep, if_neg hname.ne_parent,
        Option.bind_some, hsplit]
    rw [withExtension, hnone, if_neg hdot]
    simp only
    rw [setExtension_of_segments rfl hname.isStep hname.ne_parent, hsplit]

/-! ### Stripping and joining -/

theorem slash_notMem_ofText {t : Text} : ∀ s ∈ (ofText t).segments, '/' ∉ s := by
  have hpieces : ∀ s ∈ List.splitOn '/' t, '/' ∉ s := fun s hs => (Text.of_mem_splitOn hs).1
  unfold ofText
  split <;> simp_all

/-- A relative path that is spelled begins with a segment that leads somewhere. -/
theorem isStep_head_ofText {t : Text} (hanchor : (ofText t).anchor = .relative) :
    ofText t = {} ∨ ∃ first rest, (ofText t).segments = first :: rest ∧ isStep first = true := by
  unfold ofText at hanchor ⊢
  cases hsplit : List.splitOn '/' t with
  | nil => exact Or.inl rfl
  | cons first rest =>
    rw [hsplit] at hanchor
    by_cases hstep : isStep first = true
    · refine Or.inr ⟨first, rest, ?_, hstep⟩
      split <;> simp_all [isStep]
    · -- The first piece is empty or a dot, and then the path is not relative or there is no more.
      have hfirst : first = [] ∨ first = ['.'] := by
        by_contra hne
        simp_all [isStep]
      rcases hfirst with rfl | rfl
      · cases rest with
        | nil => exact Or.inl rfl
        | cons next rest => cases hanchor
      · cases hanchor

/-- Names are put behind the segments of a path, less the empty one after a slash at its end. -/
theorem exists_joinNames (p : Path) :
    ∃ base, base <+: p.segments ∧ base.filter isStep = p.segments.filter isStep ∧
      ∀ names, names ≠ [] → p.joinNames names = ⟨p.anchor, base ++ names⟩ := by
  have hjoin : ∀ names, names ≠ [] → p.joinNames names = if p.isEmpty then ⟨.relative, names⟩ else
      ⟨p.anchor, (if p.segments.getLast? = some [] then p.segments.dropLast else p.segments) ++
        names⟩ := by
    intro names hne
    have hnames : isEmpty { segments := names } = false := by
      simp [isEmpty, hne]
    rw [joinNames, join, if_neg (by simp), joinSegments, hnames]
    rfl
  cases hempty : p.isEmpty with
  | true =>
    obtain rfl : p = {} := of_decide_eq_true hempty
    exact ⟨[], List.nil_prefix, rfl, hjoin⟩
  | false =>
    rw [hempty] at hjoin
    by_cases hlast : p.segments.getLast? = some []
    · rw [if_pos hlast] at hjoin
      obtain ⟨front, hsegments⟩ := List.getLast?_eq_some_iff.mp hlast
      rw [hsegments, List.dropLast_concat] at hjoin
      refine ⟨front, hsegments ▸ List.prefix_append _ _, ?_, hjoin⟩
      rw [hsegments, List.filter_append]
      exact (List.append_nil _).symm
    · rw [if_neg hlast] at hjoin
      exact ⟨p.segments, List.prefix_refl _, rfl, hjoin⟩

/-- After as many steps as there are, what is left begins where the next step does. -/
theorem dropWhile_dropSteps (segments : List Text) {names : List Text}
    (hnames : ∀ name ∈ names.head?, isStep name = true) :
    (dropSteps (segments.filter isStep).length (segments ++ names)).dropWhile (fun s => !isStep s) =
      names := by
  induction segments with
  | nil =>
    cases names with
    | nil => rfl
    | cons name names =>
      exact List.dropWhile_cons_of_neg (by simp [hnames name rfl])
  | cons s segments ih =>
    by_cases hs : isStep s = true
    · rw [List.filter_cons_of_pos hs, List.length_cons, List.cons_append, dropSteps, if_pos hs, ih]
    · rw [List.filter_cons_of_neg hs, List.cons_append]
      cases hcount : (segments.filter isStep).length with
      | zero =>
        rw [hcount, dropSteps] at ih
        rw [dropSteps, List.dropWhile_cons_of_pos (by simp [hs]), ih]
      | succ n =>
        rw [hcount] at ih
        rw [dropSteps, if_neg hs, ih]

theorem trimSegments_names {names : List Text} (h : ∀ name ∈ names, isStep name = true) :
    trimSegments names = names := by
  rcases List.eq_nil_or_concat names with rfl | ⟨front, last, rfl⟩
  · rfl
  · rw [List.concat_eq_append] at h ⊢
    exact trimSegments_of_isStep front (h last (by simp))

/-- A path that is spelled has components, unless it is empty. -/
theorem components_ofText_ne_nil {t : Text} (h : (ofText t).isEmpty = false) :
    (ofText t).components ≠ [] := by
  intro hnil
  obtain ⟨hanchor, hnone⟩ := List.append_eq_nil_iff.mp hnil
  have hrelative : (ofText t).anchor = .relative := by
    cases h : (ofText t).anchor <;> simp_all [Anchor.components]
  rcases isStep_head_ofText hrelative with hempty | ⟨first, rest, hsegments, hstep⟩
  · rw [hempty] at h
    cases h
  · rw [List.map_eq_nil_iff, hsegments, List.filter_cons_of_pos hstep] at hnone
    cases hnone

/-- **A directory is stripped off a path that goes on where its steps end.** -/
theorem stripBase?_append {t : Text} (hdir : (ofText t).isEmpty = false) {base names : List Text}
    (hsteps : base.filter isStep = (ofText t).segments.filter isStep)
    (hnames : ∀ name ∈ names, isStep name = true) :
    stripBase? ⟨(ofText t).anchor, base ++ names⟩ (ofText t) = some { segments := names } := by
  have hcomponents : components ⟨(ofText t).anchor, base ++ names⟩ =
      (ofText t).components ++ (names.filter isStep).map .ofStep := by
    rw [components, components, List.filter_append, hsteps, List.map_append, List.append_assoc]
  have hprefix : (ofText t).components.isPrefixOf
      (components ⟨(ofText t).anchor, base ++ names⟩) = true := by
    rw [hcomponents]
    exact List.isPrefixOf_iff_prefix.mpr (List.prefix_append _ _)
  have hlength : (ofText t).components.length ≠ 0 := fun hzero =>
    components_ofText_ne_nil hdir (List.length_eq_zero_iff.mp hzero)
  have hcount : (ofText t).components.length - (ofText t).anchor.components.length =
      (base.filter isStep).length := by
    rw [components, List.length_append, List.length_map, hsteps, Nat.add_sub_cancel_left]
  have hhead : ∀ name ∈ names.head?, isStep name = true :=
    fun name hname => hnames name (List.mem_of_mem_head? hname)
  unfold stripBase?
  rw [if_pos hprefix]
  split
  · exact absurd (by assumption) hlength
  · simp only
    rw [hcount, dropWhile_dropSteps base hhead, trimSegments_names hnames]

/-- **A directory is stripped off what was put below it,** however it is spelled. -/
theorem stripBase?_joinNames (t : Text) {names : List Text} (hne : names ≠ [])
    (hnames : ∀ name ∈ names, isStep name = true) :
    ((ofText t).joinNames names).stripBase? (ofText t) = some { segments := names } := by
  cases hempty : (ofText t).isEmpty with
  | true =>
    -- Nothing is put before the names, and nothing is stripped off.
    rw [of_decide_eq_true hempty]
    exact congrArg (fun segments => some (Path.mk .relative segments)) (trimSegments_names hnames)
  | false =>
    obtain ⟨base, -, hsteps, hjoin⟩ := exists_joinNames (ofText t)
    rw [hjoin names hne]
    exact stripBase?_append hempty hsteps hnames

end Path

/-! ### The page -/

namespace Site

open Offside.Path

/-- The name of a page: that of its source, with the extension of pages in the place of its own, or
behind it if it has none. -/
def pageName (name : Text) : Text :=
  (splitExtension name).1 ++ '.' :: pageExtension

/-- **The page of a source below the directory.** -/
theorem page_joinNames (dir out : Text) :
    ∃ base, base.filter isStep = (ofText out).segments.filter isStep ∧
      ∀ dirs name, (∀ n ∈ dirs ++ [name], IsFileName n) →
        page (ofText dir) (ofText out) ((ofText dir).joinNames (dirs ++ [name])) =
          ⟨(ofText out).anchor, base ++ dirs ++
            [if (splitExtension name).1 = ['.'] then ['.', '.'] else pageName name]⟩ := by
  obtain ⟨base, hbase, hsteps, hjoin⟩ := exists_joinNames (ofText out)
  have hfree : ∀ s ∈ base, '/' ∉ s := fun s hs => slash_notMem_ofText s (hbase.subset hs)
  refine ⟨base, hsteps, ?_⟩
  intro dirs name hnames
  have hstrip : ((ofText dir).joinNames (dirs ++ [name])).stripBase? (ofText dir) =
      some { segments := dirs ++ [name] } :=
    stripBase?_joinNames dir (by simp) fun n hn => (hnames n hn).isStep
  have hbelow : (ofText out).join { segments := dirs ++ [name] } =
      ⟨(ofText out).anchor, base ++ dirs ++ [name]⟩ := by
    rw [List.append_assoc]
    exact hjoin (dirs ++ [name]) (by simp)
  rw [page, hstrip, Option.getD_some, hbelow]
  refine withExtension_of_name ?_ ?_ (hnames name (by simp)) pageExtension
  · intro s hs
    rw [List.append_assoc] at hs
    rcases List.mem_append.mp hs with hs | hs
    · exact hfree s hs
    · exact (hnames s hs).slash_notMem
  · intro hanchor s hs
    cases base with
    | nil =>
      rw [List.nil_append] at hs
      exact (hnames s (List.mem_of_mem_head? hs)).isStep
    | cons first rest =>
      obtain rfl : first = s := Option.some.inj hs
      rcases isStep_head_ofText hanchor with hempty | ⟨first', rest', hsegments, hstep⟩
      · rw [hempty] at hbase
        exact absurd (List.prefix_nil.mp hbase) (List.cons_ne_nil _ _)
      · rw [hsegments, List.cons_prefix_cons] at hbase
        exact hbase.1 ▸ hstep

end Site

end Offside
