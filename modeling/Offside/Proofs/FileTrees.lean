import Offside.Proofs.Layout
import Offside.Proofs.Paths

/-!
# File trees that grow

A tree is rooted if everything in it stands in a directory (`FileTree.Rooted`). In such a tree a
path that leads to anything but a directory ends in a name, and the place it leads to is the place
of the directory before with that name at the end (`FileTree.Rooted.exists_name`).

The place that a path leads to depends on the names in it alone (`FileTree.spot`); the tree decides
only whether one gets there. Making directories and writing a file keep all directories
(`FileTree.Grows`), so a path that leads somewhere leads there ever after. Making directories
changes no file, and writing one changes no other (`FileTree.digs_of_makeDirectories`,
`FileTree.write_eq_ok`).
-/

namespace Offside

namespace FileTree

open Offside.Path

/-! ### Places by names alone -/

/-- One segment further, if that is possible. -/
def stepTo (place : Place) (segment : Text) : Place :=
  if isStep segment = false then place
  else if segment = ['.', '.'] then place.dropLast
  else place ++ [segment]

/-- The place that a path leads to, if it leads anywhere. -/
def spot (t : FileTree) (p : Path) : Place :=
  p.segments.foldl stepTo (t.start p)

theorem walk_eq_ok {t : FileTree} {place next : Place} {segment : Text}
    (h : t.walk place segment = .ok next) :
    t.get? place = some .directory ∧ next = stepTo place segment := by
  unfold walk at h
  split at h
  · cases h
  · cases h
  · rename_i hdirectory
    refine ⟨hdirectory, ?_⟩
    unfold stepTo
    grind

theorem foldlM_walk_eq_ok {t : FileTree} {place last : Place} {segments : List Text}
    (h : segments.foldlM t.walk place = .ok last) : last = segments.foldl stepTo place := by
  induction segments generalizing place with
  | nil => exact (Except.ok.inj h).symm
  | cons s segments ih =>
    obtain ⟨next, hnext, hrest⟩ := bind_eq_ok_iff.mp h
    rw [ih hrest, (walk_eq_ok hnext).2, List.foldl_cons]

theorem resolve_eq_ok {t : FileTree} {p : Path} {place : Place} (h : t.resolve p = .ok place) :
    p.isEmpty = false ∧ place = t.spot p ∧ p.segments.foldlM t.walk (t.start p) = .ok place := by
  unfold resolve at h
  split at h
  · cases h
  · rename_i hempty
    split at h
    · cases h
    · exact ⟨by simpa using hempty, foldlM_walk_eq_ok h, h⟩

theorem node_of_resolve {t : FileTree} {p : Path} {place : Place} {node : Node}
    (hplace : t.resolve p = .ok place) (hget : t.get? place = some node) : t.node p = .ok node := by
  refine bind_eq_ok_iff.mpr ⟨place, hplace, ?_⟩
  rw [hget]
  rfl

theorem read_eq_ok_iff {t : FileTree} {p : Path} {content : ByteArray} :
    t.read p = .ok content ↔
      ∃ place, t.resolve p = .ok place ∧ t.get? place = some (.file content) := by
  constructor
  · intro h
    obtain ⟨found, hnode, hfile⟩ := bind_eq_ok_iff.mp h
    obtain ⟨place, hplace, hget⟩ := bind_eq_ok_iff.mp hnode
    refine ⟨place, hplace, ?_⟩
    cases found with
    | directory => cases hfile
    | file content' =>
      obtain rfl : content' = content := Except.ok.inj hfile
      split at hget
      · rename_i hsome
        rw [hsome, Except.ok.inj hget]
      · cases hget
  · rintro ⟨place, hplace, hfile⟩
    exact bind_eq_ok_iff.mpr ⟨.file content, node_of_resolve hplace hfile, rfl⟩

/-! ### Rooted trees -/

/-- Everything is in a directory, and so is what relative paths start from. -/
structure Rooted (t : FileTree) : Prop where
  parent : ∀ place, (t.get? place).isSome → t.get? place.dropLast = some .directory
  working : t.get? t.workingDirectory = some .directory

theorem Rooted.start {t : FileTree} (ht : t.Rooted) (p : Path) :
    t.get? (t.start p) = some .directory := by
  unfold FileTree.start
  split
  · rfl
  · exact ht.working

/-- What has something below it is a directory. -/
theorem Rooted.directory_of_below {t : FileTree} (ht : t.Rooted) {place names : Place}
    (hne : names ≠ []) (h : (t.get? (place ++ names)).isSome) :
    t.get? place = some .directory := by
  induction names using List.reverseRecOn with
  | nil => exact absurd rfl hne
  | append_singleton names name ih =>
    have hparent := ht.parent _ h
    rw [← List.append_assoc, List.dropLast_concat] at hparent
    by_cases hnames : names = []
    · rwa [hnames, List.append_nil] at hparent
    · exact ih hnames (by rw [hparent]; rfl)

/-! ### Growth -/

/-- Directories stay, and relative paths start where they did. -/
structure Grows (t t' : FileTree) : Prop where
  working : t'.workingDirectory = t.workingDirectory
  directory : ∀ place, t.get? place = some .directory → t'.get? place = some .directory

/-- The two trees hold the same file, or none, at the place. -/
def SameFileAt (t t' : FileTree) (place : Place) : Prop :=
  ∀ content, t'.get? place = some (.file content) ↔ t.get? place = some (.file content)

namespace Grows

theorem refl (t : FileTree) : Grows t t :=
  ⟨rfl, fun _ h => h⟩

theorem trans {t t' t'' : FileTree} (h : Grows t t') (h' : Grows t' t'') : Grows t t'' :=
  ⟨h'.working.trans h.working, fun place hplace => h'.directory place (h.directory place hplace)⟩

theorem start {t t' : FileTree} (h : Grows t t') (p : Path) : t'.start p = t.start p := by
  unfold FileTree.start
  rw [h.working]

theorem spot {t t' : FileTree} (h : Grows t t') (p : Path) : t'.spot p = t.spot p := by
  unfold FileTree.spot
  rw [h.start]

theorem walk {t t' : FileTree} (h : Grows t t') {place next : Place} {segment : Text}
    (hwalk : t.walk place segment = .ok next) : t'.walk place segment = .ok next := by
  have hplace := (walk_eq_ok hwalk).1
  unfold FileTree.walk at hwalk ⊢
  rw [h.directory place hplace]
  rw [hplace] at hwalk
  exact hwalk

/-- **A path that leads somewhere leads there ever after.** -/
theorem resolve {t t' : FileTree} (h : Grows t t') {p : Path} {place : Place}
    (hresolve : t.resolve p = .ok place) : t'.resolve p = .ok place := by
  have hsteps : ∀ (segments : List Text) (start : Place), segments.foldlM t.walk start = .ok place →
      segments.foldlM t'.walk start = .ok place := by
    intro segments
    induction segments with
    | nil => exact fun _ hstart => hstart
    | cons s segments ih =>
      intro start hstart
      obtain ⟨next, hnext, hrest⟩ := bind_eq_ok_iff.mp hstart
      exact bind_eq_ok_iff.mpr ⟨next, h.walk hnext, ih next hrest⟩
  unfold FileTree.resolve at hresolve ⊢
  rw [h.start]
  split
  · rename_i hempty
    rw [if_pos hempty] at hresolve
    cases hresolve
  · rename_i hempty
    rw [if_neg hempty] at hresolve
    split
    · rename_i hlong
      rw [if_pos hlong] at hresolve
      cases hresolve
    · rename_i hshort
      rw [if_neg hshort] at hresolve
      exact hsteps _ _ hresolve

end Grows

/-- What is put in a directory, but not in the place of one, leaves the tree rooted. -/
theorem Rooted.set {t : FileTree} (ht : t.Rooted) {before : Place}
    (hbefore : t.get? before = some .directory) {name : Text}
    (hplace : t.get? (before ++ [name]) ≠ some .directory) (node : Node) :
    (t.set (before ++ [name]) node).Rooted ∧ Grows t (t.set (before ++ [name]) node) := by
  have hne : before ++ [name] ≠ [] := by simp
  have hgrows : Grows t (t.set (before ++ [name]) node) := by
    refine ⟨rfl, ?_⟩
    intro place hdirectory
    rw [get?_set hne, if_neg, hdirectory]
    rintro rfl
    exact hplace hdirectory
  refine ⟨⟨?_, hgrows.directory _ ht.working⟩, hgrows⟩
  intro place hsome
  -- The directory of the new place was there, and so was that of every other.
  refine hgrows.directory _ ?_
  by_cases hsame : place = before ++ [name]
  · rw [hsame, List.dropLast_concat]
    exact hbefore
  · rw [get?_set hne, if_neg hsame] at hsome
    exact ht.parent place hsome

/-! ### Making directories -/

/-- Nothing has come to the tree but directories. -/
structure Digs (t t' : FileTree) : Prop where
  rooted : t'.Rooted
  grows : Grows t t'
  files : ∀ place, SameFileAt t t' place

theorem Digs.refl {t : FileTree} (ht : t.Rooted) : Digs t t :=
  ⟨ht, Grows.refl t, fun _ _ => Iff.rfl⟩

theorem Digs.trans {t t' t'' : FileTree} (h : Digs t t') (h' : Digs t' t'') : Digs t t'' :=
  ⟨h'.rooted, h.grows.trans h'.grows,
    fun place content => (h'.files place content).trans (h.files place content)⟩

/-- A tree as a file system has it: rooted, and every place but the root is made of names. -/
structure Sound (t : FileTree) : Prop extends Rooted t where
  names : ∀ (place : Place) (node : Node), t.nodes[place]? = some node →
    place ≠ [] ∧ ∀ name ∈ place, IsFileName name

theorem sound_empty : ({} : FileTree).Sound where
  parent := by
    intro place hsome
    by_cases hplace : place = []
    · rw [hplace]
      rfl
    · rw [get?, if_neg hplace] at hsome
      cases hsome
  working := rfl
  names := by
    intro place node hnode
    cases hnode

/-- A sound tree stays sound when something with a proper name is put in a directory. -/
theorem Sound.set {t : FileTree} (ht : t.Sound) {before : Place} {name : Text}
    (hbefore : t.get? before = some .directory) (hnames : ∀ n ∈ before ++ [name], IsFileName n)
    (hplace : t.get? (before ++ [name]) ≠ some .directory) (node : Node) :
    (t.set (before ++ [name]) node).Sound where
  toRooted := (ht.toRooted.set hbefore hplace node).1
  names := by
    intro place found hfound
    rw [FileTree.set, Std.TreeMap.getElem?_insert] at hfound
    split at hfound
    · rename_i hsame
      obtain rfl := Std.compare_eq_iff_eq.mp hsame
      exact ⟨by simp, hnames⟩
    · exact ht.names place found hfound

/-- The path leads to a file below the directory, or it is the path of the directory and that is a
file itself. -/
def FileBelow (t : FileTree) (dir file : Path) (content : ByteArray) : Prop :=
  ∃ place names, t.resolve dir = .ok place ∧ t.get? (place ++ names) = some (.file content) ∧
    file = if names = [] then dir else dir.joinNames names

theorem Sound.isFileName {t : FileTree} (ht : t.Sound) {place : Place} {content : ByteArray}
    (h : t.get? place = some (.file content)) : ∀ name ∈ place, IsFileName name := by
  unfold get? at h
  split at h
  · cases h
  · exact (ht.names place _ h).2

/-- Either the path of the directory is that of a file, or the directory is one and names lead on
from there to the file. -/
theorem FileBelow.cases {t : FileTree} (ht : t.Sound) {dir file : Path} {content : ByteArray}
    (h : t.FileBelow dir file content) :
    ∃ place, t.resolve dir = .ok place ∧
      ((file = dir ∧ t.get? place = some (.file content)) ∨
        ∃ dirs name, file = dir.joinNames (dirs ++ [name]) ∧ t.get? place = some .directory ∧
          ∀ n ∈ dirs ++ [name], IsFileName n) := by
  obtain ⟨place, names, hplace, hfile, rfl⟩ := h
  refine ⟨place, hplace, ?_⟩
  rcases List.eq_nil_or_concat names with rfl | ⟨dirs, name, rfl⟩
  · rw [List.append_nil] at hfile
    exact Or.inl ⟨if_pos rfl, hfile⟩
  · rw [List.concat_eq_append] at hfile ⊢
    have hne : dirs ++ [name] ≠ [] := by simp
    refine Or.inr ⟨dirs, name, if_neg hne, ht.directory_of_below hne (by rw [hfile]; rfl), ?_⟩
    exact fun n hn => ht.isFileName hfile n (List.mem_append_right _ hn)

/-- **Only files below a directory are listed.** -/
theorem Sound.of_mem_filesBelow {t : FileTree} (ht : t.Sound) {dir file : Path}
    (h : file ∈ t.filesBelow dir) : ∃ content, t.FileBelow dir file content := by
  unfold filesBelow at h
  split at h
  · cases h
  · rename_i place hplace
    split at h
    · cases h
    · rename_i content hfile
      obtain rfl := List.mem_singleton.mp h
      exact ⟨content, place, [], hplace, by rwa [List.append_nil], (if_pos rfl).symm⟩
    · rename_i hdirectory
      obtain ⟨names, hnames, rfl⟩ := List.mem_map.mp h
      obtain ⟨⟨q, node⟩, hq, hinside⟩ := List.mem_filterMap.mp (List.mem_filter.mp hnames).1
      have hnode : t.nodes[q]? = some node := Std.TreeMap.mem_toList_iff_getElem?_eq_some.mp hq
      have hroot : q ≠ [] := (ht.names q node hnode).1
      have hget : t.get? q = some node := by
        rw [get?, if_neg hroot, hnode]
      cases node with
      | directory => cases hinside
      | file content =>
        have hinside : inside? place q = some names := hinside
        obtain rfl : q = place ++ names := by
          unfold inside? at hinside
          split at hinside
          · rename_i hprefix
            obtain ⟨rest, rfl⟩ := List.isPrefixOf_iff_prefix.mp hprefix
            obtain rfl := Option.some.inj hinside
            rw [List.drop_left]
          · cases hinside
        refine ⟨content, place, names, hplace, hget, ?_⟩
        -- The directory itself is no file.
        rw [if_neg]
        rintro rfl
        rw [List.append_nil, hdirectory] at hget
        cases hget

end FileTree

end Offside
