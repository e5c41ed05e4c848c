import Offside.Proofs.Build

/-!
# Where pages stand

The pages of a site mirror its sources, and two things are asked of that. The names below the
directory of the sources are to be found again below the output directory, so that no page takes the
place of another (`Site.page_mirrors_iff`). And no page is to stand anywhere else
(`Site.page_below_iff`). Both are said of components, so that it makes no difference how the two
directories are spelled.

Each of them has one exception, and both come from an extension being set on the whole path and not
on the name of the source.

* **A name that starts with its only two dots.** Without its extension `..haml` is the parent
  directory, and that takes no extension. So its page is the directory above the one it should stand
  in. It is the page of no other source even so.
* **A file in the place of the directory.** It is its own only source, and nothing of its path is
  left to be put below the output directory. The extension is set on the name of the output
  directory itself, and the page stands beside that (`Site.length_components_page_self`). What cuts
  an extension off a spelling never makes a path longer (`Path.length_components_take`).
-/

namespace Offside

namespace Path

/-! ### Components -/

theorem ofStep_of_ne {name : Text} (h : name ≠ ['.', '.']) : Component.ofStep name = .name name :=
  if_neg h

/-- Segments that are added at the end add the components of their steps. -/
theorem components_append (anchor : Anchor) (base segments : List Text) :
    components ⟨anchor, base ++ segments⟩ =
      components ⟨anchor, base⟩ ++ (segments.filter isStep).map .ofStep := by
  rw [components, components, List.filter_append, List.map_append, List.append_assoc]

theorem map_ofStep_names {names : List Text} (h : ∀ name ∈ names, IsFileName name) :
    (names.filter isStep).map Component.ofStep = names.map .name := by
  rw [List.filter_eq_self.mpr fun name hname => (h name hname).isStep]
  exact List.map_congr_left fun name hname => ofStep_of_ne (h name hname).ne_parent

theorem length_components (p : Path) :
    p.components.length = p.anchor.components.length + (p.segments.filter isStep).length := by
  rw [components, List.length_append, List.length_map]

/-! ### Names -/

/-- A name is made of its stem and its extension. -/
theorem splitExtension_injective : Function.Injective splitExtension := by
  intro a b h
  rcases ha : splitExtension a with ⟨stem, extension⟩
  have hb : splitExtension b = (stem, extension) := h.symm.trans ha
  cases extension with
  | none => exact (splitExtension_of_none ha).symm.trans (splitExtension_of_none hb)
  | some extension => rw [(eq_of_splitExtension ha).1, (eq_of_splitExtension hb).1]

/-- A name that starts with two dots and has no other. -/
def IsTwoDots (name : Text) : Prop :=
  ∃ extension, '.' ∉ extension ∧ name = '.' :: '.' :: extension

theorem stem_eq_dot_iff {name : Text} (hname : IsFileName name) :
    (splitExtension name).1 = ['.'] ↔ IsTwoDots name := by
  constructor
  · intro hstem
    rcases hsplit : splitExtension name with ⟨stem, extension⟩
    rw [hsplit] at hstem
    obtain rfl : stem = ['.'] := hstem
    cases extension with
    | none =>
      -- A name without an extension would be the dot itself.
      have hstep := hname.isStep
      rw [← splitExtension_of_none hsplit] at hstep
      cases hstep
    | some extension =>
      obtain ⟨hsplit, -, hfree⟩ := eq_of_splitExtension hsplit
      exact ⟨extension, hfree, hsplit⟩
  · rintro ⟨extension, hfree, rfl⟩
    have hsplit := splitExtension_dot ['.'] hfree
    rw [if_neg (List.cons_ne_nil _ _)] at hsplit
    exact congrArg Prod.fst hsplit

/-! ### Shorter spellings -/

/-- A spelling that goes on has the same pieces, of which the last goes on as well. -/
theorem exists_splitOn_append (a b : Text) :
    ∃ front last more rest, List.splitOn '/' a = front ++ [last] ∧
      List.splitOn '/' (a ++ b) = front ++ (last ++ more) :: rest := by
  induction a with
  | nil =>
    cases hsplit : List.splitOn '/' b with
    | nil => exact absurd hsplit (by simp)
    | cons first rest => exact ⟨[], [], first, rest, rfl, hsplit⟩
  | cons c a ih =>
    obtain ⟨front, last, more, rest, ha, hab⟩ := ih
    rw [List.splitOn_eq_splitOnP] at ha hab ⊢
    rw [List.splitOn_eq_splitOnP, List.cons_append, List.splitOnP_cons_eq_if_modifyHead,
      List.splitOnP_cons_eq_if_modifyHead, ha, hab]
    split
    · exact ⟨[] :: front, last, more, rest, rfl, rfl⟩
    · -- The character goes to the first piece, which is the last one if there is no slash.
      cases front with
      | nil => exact ⟨[], c :: last, more, rest, rfl, rfl⟩
      | cons first front => exact ⟨(c :: first) :: front, last, more, rest, rfl, rfl⟩

/-- The first piece of a spelling is one component in any case, as a step or as the anchor. -/
theorem length_components_ofText {t first : Text} {rest : List Text} (hne : t ≠ [])
    (hsplit : List.splitOn '/' t = first :: rest) :
    (ofText t).components.length = 1 + (rest.filter isStep).length := by
  rw [length_components, ofText, hsplit]
  split
  · contradiction
  · rename_i hpieces
    rw [hpieces] at hsplit
    have hspelling : ['/'].intercalate (List.splitOn '/' t) = t := List.intercalate_splitOn '/'
    rw [hsplit] at hspelling
    exact absurd hspelling.symm hne
  · simp_all [Anchor.components]
  · simp_all [Anchor.components]
  · have hstep : isStep first = true := by
      simp_all [isStep]
    rw [List.filter_cons_of_pos hstep, List.length_cons, Nat.add_comm _ 1]
    exact Nat.zero_add _

/-- A step that goes on is a step. -/
theorem isStep_append {segment : Text} (h : isStep segment = true) (more : Text) :
    isStep (segment ++ more) = true := by
  cases segment with
  | nil => cases h
  | cons c rest =>
    cases rest with
    | nil => simp_all [isStep]
    | cons c' rest => simp [isStep]

/-- **A spelling that is cut off has no more components.** -/
theorem length_components_take (t : Text) (n : Nat) :
    (ofText (t.take n)).components.length ≤ (ofText t).components.length := by
  by_cases hne : t.take n = []
  · rw [hne]
    exact Nat.zero_le _
  obtain ⟨front, last, more, rest, hcut, hwhole⟩ := exists_splitOn_append (t.take n) (t.drop n)
  rw [List.take_append_drop] at hwhole
  have hwhole_ne : t ≠ [] := fun hnil => hne (by rw [hnil, List.take_nil])
  cases front with
  | nil =>
    rw [length_components_ofText hne hcut, length_components_ofText hwhole_ne hwhole]
    exact Nat.add_le_add_left (Nat.zero_le _) 1
  | cons first front =>
    rw [List.cons_append] at hcut hwhole
    rw [length_components_ofText hne hcut, length_components_ofText hwhole_ne hwhole,
      List.filter_append, List.filter_append, List.length_append, List.length_append]
    have hlast : ([last].filter isStep).length ≤
        (((last ++ more) :: rest).filter isStep).length := by
      by_cases hstep : isStep last = true
      · rw [List.filter_cons_of_pos (isStep_append hstep more)]
        exact Nat.le_trans (List.length_filter_le _ _) (Nat.le_add_left 1 _)
      · rw [List.filter_cons_of_neg hstep]
        exact Nat.zero_le _
    omega

theorem length_components_setExtension (p : Path) (extension : Text) :
    (p.setExtension extension).components.length ≤ p.components.length := by
  unfold setExtension
  split
  · exact Nat.le_refl _
  rename_i name hname
  obtain ⟨front, last, htrim, hstep⟩ : ∃ front last, trimSegments p.segments = front ++ [last] ∧
      isStep last = true := by
    unfold fileName? at hname
    split at hname
    · cases hname
    · rename_i last hlast
      obtain ⟨front, htrim⟩ := List.getLast?_eq_some_iff.mp hlast
      exact ⟨front, last, htrim, isStep_of_getLast?_trimSegments hlast⟩
  have hsteps : ((front ++ [last]).filter isStep).length ≤ (p.segments.filter isStep).length := by
    rw [← htrim, trimSegments]
    have hsublist := (List.dropWhile_sublist (fun s => !isStep s) (l := p.segments.reverse)).reverse
    rw [List.reverse_reverse] at hsublist
    exact (hsublist.filter isStep).length_le
  -- In the place of a step there is one segment.
  rw [length_components, length_components, htrim, List.dropLast_concat]
  refine Nat.add_le_add_left (le_trans ?_ hsteps) _
  rw [List.filter_append, List.filter_append, List.filter_cons_of_pos hstep, List.length_append,
    List.length_append]
  exact Nat.add_le_add_left (List.length_filter_le _ _) _

/-- **A new extension never adds a component.** -/
theorem length_components_withExtension {p : Path} (hspelled : ofText p.toText = p)
    (extension : Text) :
    (p.withExtension extension).components.length ≤ p.components.length := by
  unfold withExtension
  split
  · exact length_components_setExtension p extension
  · calc _ ≤ (ofText (p.toText.take _)).components.length := length_components_setExtension _ _
      _ ≤ (ofText p.toText).components.length := length_components_take _ _
      _ = p.components.length := by rw [hspelled]

end Path

namespace Site

open Offside.Path

/-! ### Pages mirror their sources -/

theorem isStep_pageName {name : Text} (h : IsFileName name) : isStep (pageName name) = true := by
  refine isStep_concat_dot (splitExtension_fst_ne_nil ?_) _
  rintro rfl
  cases h.isStep

theorem pageName_ne_parent (name : Text) : pageName name ≠ ['.', '.'] := by
  intro hparent
  have hlast := congrArg List.getLast? hparent
  rw [pageName, List.getLast?_append] at hlast
  cases hlast

/-- The page of the source to which some names lead from the directory. -/
def pageAt (dir out : Text) (names : List Text) : Path :=
  page (ofText dir) (ofText out) ((ofText dir).joinNames names)

/-- The last component of a page: its name, or the parent directory. -/
def lastComponent (name : Text) : Component :=
  if (splitExtension name).1 = ['.'] then .parent else .name (pageName name)

/-- **The components of a page.** Those of the output directory come first, and then those of the
source below its directory, of which the last is changed. -/
theorem components_pageAt (dir out : Text) {dirs : List Text} {name : Text}
    (hnames : ∀ n ∈ dirs ++ [name], IsFileName n) :
    (pageAt dir out (dirs ++ [name])).components =
      (ofText out).components ++ (dirs.map .name ++ [lastComponent name]) := by
  -- The output directory may lose a slash at its end, which is no component.
  obtain ⟨base, hsteps, hpage⟩ := page_joinNames dir out
  obtain ⟨hdirs, hname⟩ := List.forall_mem_append.mp hnames
  have hout : components ⟨(ofText out).anchor, base⟩ = (ofText out).components := by
    rw [components, components, hsteps]
  have hlast : ([if (splitExtension name).1 = ['.'] then ['.', '.'] else pageName name].filter
      isStep).map Component.ofStep = [lastComponent name] := by
    unfold lastComponent
    split
    · rfl
    · rw [List.filter_cons_of_pos (isStep_pageName (List.forall_mem_singleton.mp hname))]
      exact congrArg (fun c => [c]) (ofStep_of_ne (pageName_ne_parent name))
  rw [pageAt, hpage dirs name hnames, components_append, components_append, hout,
    map_ofStep_names hdirs, hlast, List.append_assoc]

theorem eq_of_lastComponent {name name' : Text}
    (hextension : (splitExtension name).2 = (splitExtension name').2)
    (h : lastComponent name = lastComponent name') : name = name' := by
  have hstem : (splitExtension name).1 = (splitExtension name').1 := by
    unfold lastComponent at h
    by_cases hdot : (splitExtension name).1 = ['.']
    · -- A parent directory is no name, so both stems are the dot.
      rw [if_pos hdot] at h
      by_contra hne
      rw [if_neg fun hdot' => hne (hdot.trans hdot'.symm)] at h
      cases h
    · rw [if_neg hdot] at h
      split at h
      · cases h
      · exact List.append_cancel_right (Component.name.inj h)
  exact splitExtension_injective (Prod.ext hstem hextension)

/-- **Pages mirror their sources, but for names of two dots.** However the directory of the sources
and the output directory are spelled: the page of a source has the components of the output
directory, then those of the source below its directory with the extension of pages on the last,
exactly if the last name does not start with its only two dots; else the parent directory stands in
the place of the last. And different sources with the same extension have different pages in any
case. -/
theorem page_mirrors_iff (dir out : Text) :
    (∀ dirs name, (∀ n ∈ dirs ++ [name], IsFileName n) →
      ((pageAt dir out (dirs ++ [name])).components =
          (ofText out).components ++ (dirs ++ [pageName name]).map .name ↔ ¬ IsTwoDots name) ∧
      (IsTwoDots name → (pageAt dir out (dirs ++ [name])).components =
          (ofText out).components ++ (dirs.map .name ++ [.parent]))) ∧
    (∀ dirs name dirs' name', (∀ n ∈ dirs ++ [name], IsFileName n) →
      (∀ n ∈ dirs' ++ [name'], IsFileName n) →
      (splitExtension name).2 = (splitExtension name').2 → dirs ++ [name] ≠ dirs' ++ [name'] →
        (pageAt dir out (dirs ++ [name])).components ≠
          (pageAt dir out (dirs' ++ [name'])).components) := by
  constructor
  · intro dirs name hnames
    have hname : IsFileName name := hnames name (by simp)
    have hcomponents := components_pageAt dir out hnames
    unfold lastComponent at hcomponents
    by_cases hdots : IsTwoDots name
    · rw [if_pos ((stem_eq_dot_iff hname).mpr hdots)] at hcomponents
      refine ⟨iff_of_false ?_ (not_not_intro hdots), fun _ => hcomponents⟩
      -- The parent directory is not the name of a page.
      rw [hcomponents, List.map_append]
      intro hsame
      have hlast := List.append_inj_right' (List.append_cancel_left hsame) rfl
      cases hlast
    · rw [if_neg fun hstem => hdots ((stem_eq_dot_iff hname).mp hstem)] at hcomponents
      refine ⟨iff_of_true ?_ hdots, fun h => absurd h hdots⟩
      rw [hcomponents, List.map_append]
      rfl
  · intro dirs name dirs' name' hnames hnames' hextension hne hsame
    rw [components_pageAt dir out hnames, components_pageAt dir out hnames'] at hsame
    obtain ⟨hdirs, hlast⟩ := List.append_inj' (List.append_cancel_left hsame) rfl
    have hname : name = name' := eq_of_lastComponent hextension (List.singleton_inj.mp hlast)
    have hdirs : dirs = dirs' :=
      List.map_injective_iff.mpr (fun _ _ h => Component.name.inj h) hdirs
    exact hne (by rw [hdirs, hname])

/-- Names with several dots and with one at the start, below directories that are spelled with
slashes and dots of all kinds. -/
theorem page_mirrors_iff_spelled :
    (∀ n ∈ [".a".toList] ++ ["b.c.haml".toList], IsFileName n) ∧
      (∀ n ∈ [".a".toList] ++ ["b..haml".toList], IsFileName n) ∧
      (pageAt "./s//".toList "/d/../".toList ([".a".toList] ++ ["b.c.haml".toList])).components =
        [.root, .name "d".toList, .parent, .name ".a".toList, .name "b.c.html".toList] ∧
      (pageAt "./s//".toList "/d/../".toList ([".a".toList] ++ ["b.c.haml".toList])).components ≠
        (pageAt "./s//".toList "/d/../".toList
          ([".a".toList] ++ ["b..haml".toList])).components := by
  have hfirst : ∀ n ∈ [".a".toList] ++ ["b.c.haml".toList], IsFileName n := by
    simp only [List.forall_mem_append, List.forall_mem_singleton]
    exact ⟨⟨by decide, by decide, by decide⟩, by decide, by decide, by decide⟩
  have hsecond : ∀ n ∈ [".a".toList] ++ ["b..haml".toList], IsFileName n := by
    simp only [List.forall_mem_append, List.forall_mem_singleton]
    exact ⟨⟨by decide, by decide, by decide⟩, by decide, by decide, by decide⟩
  have hdots : ¬ IsTwoDots "b.c.haml".toList := fun h =>
    absurd ((stem_eq_dot_iff (hfirst _ (by simp))).mpr h) (by decide)
  obtain ⟨hmirrors, hdistinct⟩ := page_mirrors_iff "./s//".toList "/d/../".toList
  refine ⟨hfirst, hsecond, ((hmirrors _ _ hfirst).1.mpr hdots).trans (by decide), ?_⟩
  exact hdistinct _ _ _ _ hfirst hsecond (by decide) (by decide)

/-- The page of `site/..haml` is not `dist/..html` but the directory above `dist`. -/
theorem not_page_mirrors_twoDots :
    IsFileName "..haml".toList ∧
      page (ofText "site".toList) (ofText "dist".toList) (ofText "site/..haml".toList) =
        ofText "dist/..".toList ∧
      (pageAt "site".toList "dist".toList ["..haml".toList]).components ≠
        (ofText "dist".toList).components ++ [pageName "..haml".toList].map .name ∧
      pageName "..haml".toList = "..html".toList :=
  ⟨⟨by decide, by decide, by decide⟩, by decide, by decide, by decide⟩

/-! ### Pages stand below the output directory -/

/-- A path that goes on from the output directory: it has its components, and more. -/
def Below (out p : Path) : Prop :=
  out.components <+: p.components ∧ p.components ≠ out.components

/-- An empty path adds no component, and leaves a path that can be spelled. -/
theorem join_empty (t : Text) :
    ((ofText t).join {}).components = (ofText t).components ∧
      ofText ((ofText t).join {}).toText = (ofText t).join {} := by
  cases hempty : (ofText t).isEmpty with
  | true =>
    rw [of_decide_eq_true hempty]
    exact ⟨rfl, rfl⟩
  | false =>
    obtain ⟨base, hbase, hsteps, hjoin⟩ := exists_joinNames (ofText t)
    have hslash : (ofText t).join {} = ⟨(ofText t).anchor, base ++ [[]]⟩ := by
      rw [← hjoin [[]] (List.cons_ne_nil _ _), joinNames, join, join, hempty]
      rfl
    rw [hslash]
    constructor
    · rw [components, components, List.filter_append, hsteps]
      simp [isStep]
    refine ofText_toText (by simp) ?_ ?_
    · intro s hs
      rcases List.mem_append.mp hs with hs | hs
      · exact slash_notMem_ofText s (hbase.subset hs)
      · rw [List.mem_singleton.mp hs]
        exact List.not_mem_nil
    · intro hanchor s hs
      rcases isStep_head_ofText hanchor with hnone | ⟨first, rest, hsegments, hstep⟩
      · rw [hnone] at hempty
        cases hempty
      -- The first segment is a step, so it is not the empty one that is taken off.
      cases base with
      | nil =>
        rw [hsegments, List.filter_cons_of_pos hstep] at hsteps
        cases hsteps
      | cons first' base =>
        rw [hsegments, List.cons_prefix_cons] at hbase
        obtain rfl : first' = s := Option.some.inj hs
        rw [hbase.1]
        exact hstep

/-- **The page of the directory itself** goes no deeper than the output directory does. -/
theorem length_components_page_self (dir out : Text) (hdir : (ofText dir).isEmpty = false) :
    (page (ofText dir) (ofText out) (ofText dir)).components.length ≤
      (ofText out).components.length := by
  have hstrip : (ofText dir).stripBase? (ofText dir) = some {} := by
    have happend : stripBase? ⟨(ofText dir).anchor, (ofText dir).segments ++ []⟩ (ofText dir) =
        some {} := stripBase?_append hdir rfl (by simp)
    rwa [List.append_nil] at happend
  obtain ⟨hcomponents, hspelled⟩ := join_empty out
  rw [page, hstrip, Option.getD_some, ← hcomponents]
  exact length_components_withExtension hspelled pageExtension

/-- **Pages stand below the output directory, but for the one of a file in the place of the
directory.** In every tree, and however the directory and the output directory are spelled: if the
directory is one, then the pages of all its sources stand below the output directory. If a file is
given in its place, then its page does not. -/
theorem page_below_iff (tree : FileTree) (htree : tree.Sound) (dir out extension : Text)
    (source : Path) (hsource : source ∈ sources tree (ofText dir) extension) :
    Below (ofText out) (page (ofText dir) (ofText out) source) ↔
      tree.node (ofText dir) = .ok .directory := by
  -- A source is the directory itself, if that is a file, or names lead to it from there.
  obtain ⟨content, hbelow⟩ := htree.of_mem_filesBelow (List.mem_filter.mp hsource).1
  obtain ⟨place, hplace, ⟨rfl, hfile⟩ | ⟨dirs, name, rfl, hdirectory, hnames⟩⟩ :=
    hbelow.cases htree
  · refine iff_of_false ?_ ?_
    · -- A path that begins like the output directory and is no longer is the output directory.
      rintro ⟨hleads, hne⟩
      have hlength := length_components_page_self dir out (FileTree.resolve_eq_ok hplace).1
      exact hne (hleads.eq_of_length_le hlength).symm
    · rw [FileTree.node_of_resolve hplace hfile]
      exact fun hnode => nomatch hnode
  · refine iff_of_true ⟨?_, ?_⟩ (FileTree.node_of_resolve hplace hdirectory)
    · exact components_pageAt dir out hnames ▸ List.prefix_append _ _
    · intro hsame
      have hlength := congrArg List.length ((components_pageAt dir out hnames).symm.trans hsame)
      simp at hlength

/-- A directory that is spelled with slashes and dots, and an output directory that has an extension
itself. -/
theorem page_below_iff_spelled :
    ∃ tree : FileTree, tree.Sound ∧
      ofText ".//s/a.haml".toList ∈ sources tree (ofText ".//s/".toList) "haml".toList ∧
      tree.node (ofText ".//s/".toList) = .ok .directory ∧
      Below (ofText "../d.x/".toList)
        (page (ofText ".//s/".toList) (ofText "../d.x/".toList) (ofText ".//s/a.haml".toList)) := by
  let outer : FileTree := ({} : FileTree).set ["s".toList] .directory
  let tree : FileTree := outer.set ["s".toList, "a.haml".toList] (.file .empty)
  have hdirectory : IsFileName "s".toList := ⟨by decide, by decide, by decide⟩
  have hfile : IsFileName "a.haml".toList := ⟨by decide, by decide, by decide⟩
  have hsound : tree.Sound := by
    have houter : outer.Sound := @FileTree.Sound.set _ FileTree.sound_empty [] _ rfl
      (List.forall_mem_singleton.mpr hdirectory) (by decide) _
    refine @FileTree.Sound.set _ houter ["s".toList] _ (FileTree.get?_set (by decide) ..) ?_ ?_ _
    · exact List.forall_mem_cons.mpr ⟨hdirectory, List.forall_mem_singleton.mpr hfile⟩
    · rw [FileTree.get?_set (by decide)]
      decide
  have hsource : ofText ".//s/a.haml".toList ∈
      sources tree (ofText ".//s/".toList) "haml".toList := by
    have hlist : tree.filesBelow (ofText ".//s/".toList) = [ofText ".//s/a.haml".toList] := by cbv
    rw [sources, hlist]
    decide
  have hnode : tree.node (ofText ".//s/".toList) = .ok .directory := by cbv
  exact ⟨tree, hsound, hsource, hnode, (page_below_iff tree hsound _ _ _ _ hsource).mpr hnode⟩

/-- **The page of a file that is given in the place of the directory** is written beside the output
directory. -/
theorem not_page_below_file :
    ∃ tree : FileTree, tree.Sound ∧ tree.exists? (ofText "page.haml".toList) = true ∧
      sources tree (ofText "page.haml".toList) "haml".toList = [ofText "page.haml".toList] ∧
      page (ofText "page.haml".toList) (ofText "dist".toList) (ofText "page.haml".toList) =
        ofText "dist.html".toList ∧
      ¬ Below (ofText "dist".toList) (ofText "dist.html".toList) ∧
      (Cli.run false ["build".toList, "page.haml".toList] tree .empty).tree.read
        (ofText "dist.html".toList) = .ok "<p>x</p>\n".toUTF8 := by
  let tree : FileTree := ({} : FileTree).set ["page.haml".toList] (.file "%p x".toUTF8)
  have hsound : tree.Sound := by
    refine @FileTree.Sound.set _ FileTree.sound_empty [] _ rfl ?_ (by decide) _
    exact List.forall_mem_singleton.mpr ⟨by decide, by decide, by decide⟩
  have hsources : sources tree (ofText "page.haml".toList) "haml".toList =
      [ofText "page.haml".toList] := by
    have hlist : tree.filesBelow (ofText "page.haml".toList) = [ofText "page.haml".toList] := by cbv
    rw [sources, hlist]
    decide
  have hrequest : Cli.Request.ofArguments ["build".toList, "page.haml".toList] =
      .run false (.build "page.haml".toList none {} false) := rfl
  have hsettings : Settings.load tree = .ok {} := by
    have hnone : tree.exists? Settings.file = false := by cbv
    rw [Settings.load, hnone]
    rfl
  have hbuild : ((Cli.BuildPlan.build ⟨false, false, .ofText "page.haml".toList,
      .ofText "dist".toList, "haml".toList, {}⟩).run.run { tree }).1 = .ok 0 := by
    cbv
  have hwritten : ((Cli.BuildPlan.build ⟨false, false, .ofText "page.haml".toList,
      .ofText "dist".toList, "haml".toList, {}⟩).run.run { tree }).2.tree.read
        (ofText "dist.html".toList) = .ok "<p>x</p>\n".toUTF8 := by
    cbv
  have hleads : Cli.Action.Leads (Cli.perform false false {}
      (.build "page.haml".toList none {} false)) { tree } _ 0 := Prod.ext hbuild rfl
  refine ⟨tree, hsound, by cbv, hsources, by decide, ?_, ?_⟩
  · exact fun hbelow => absurd hbelow.1 (by decide)
  · rw [Cli.run_of_leads hrequest ((Cli.leads_execute_iff hsettings).mpr hleads)]
    exact hwritten

end Site

end Offside
