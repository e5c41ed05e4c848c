import Offside.Markup.Fragment
import Offside.Proofs.Text
import Offside.Tag.Reader

/-!
# What a tag is made of

Reading a tag line only cuts. Every part of the tag, but for the default name, consists of
characters of the line (`Tag.Within`, `Tag.within_read`), and its name is a non-empty run of name
characters (`Tag.isName_read`). So whatever character a line avoids, its tag avoids.

Writing a fragment adds little: the brackets, the attribute punctuation and the words `id`,
`class` and `&quot;` (`Tag.assignments_subset`). In particular the only opening brackets of a
fragment are those that start its tags, which is what lets a reader of the output find the tags
again. `Tag.fragment_cases` says once what the fragment of a tag can be.
-/

namespace Offside

/-! ### Selectors -/

namespace Selector

theorem ident_subset (t : Text) : ident t ⊆ t :=
  (List.takeWhile_sublist isIdentChar).subset

theorem afterIdent_subset (t : Text) : afterIdent t ⊆ t :=
  (List.dropWhile_sublist isIdentChar).subset

theorem takeFirst_subset (mark : Char) (t : Text) :
    (∀ token ∈ (takeFirst mark t).1, token ⊆ t) ∧ (takeFirst mark t).2 ⊆ t := by
  induction t with
  | nil => exact ⟨fun _ h => (nomatch h), List.nil_subset _⟩
  | cons c rest ih =>
    rw [takeFirst]
    -- Either the token starts here, or the search goes on and the character is left over.
    split
    · refine ⟨fun token htoken => ?_, List.subset_cons_of_subset c (afterIdent_subset rest)⟩
      obtain rfl : ident rest = token := Option.some.inj htoken
      exact List.subset_cons_of_subset c (ident_subset rest)
    · exact ⟨fun token htoken => List.subset_cons_of_subset c (ih.1 token htoken),
        List.cons_subset_cons c ih.2⟩

theorem takeAll_subset (mark : Char) (t : Text) :
    (∀ token ∈ (takeAll mark t).1, token ⊆ t) ∧ (takeAll mark t).2 ⊆ t := by
  fun_induction takeAll mark t with
  | case1 => exact ⟨fun _ h => absurd h List.not_mem_nil, List.nil_subset _⟩
  | case2 c rest hmark later ih =>
    have hafter : afterIdent rest ⊆ c :: rest :=
      List.subset_cons_of_subset c (afterIdent_subset rest)
    refine ⟨fun token htoken => ?_, List.Subset.trans ih.2 hafter⟩
    rcases List.mem_cons.mp htoken with rfl | htoken
    · exact List.subset_cons_of_subset c (ident_subset rest)
    · exact List.Subset.trans (ih.1 token htoken) hafter
  | case3 c rest hmark later ih =>
    exact ⟨fun token htoken => List.subset_cons_of_subset c (ih.1 token htoken),
      List.cons_subset_cons c ih.2⟩

end Selector

/-! ### Attributes -/

namespace Attributes

theorem mem_setEntry {key value : Text} {entries : List (Text × Text)} {e : Text × Text}
    (h : e ∈ setEntry key value entries) : e = (key, value) ∨ e ∈ entries := by
  induction entries with
  | nil => exact Or.inl (List.mem_singleton.mp h)
  | cons first rest ih =>
    obtain ⟨k, v⟩ := first
    rw [setEntry] at h
    -- A key that is there keeps its place, so the entry is replaced and the rest stays.
    split at h
    · rcases List.mem_cons.mp h with h | h
      · exact Or.inl h
      · exact Or.inr (List.mem_cons_of_mem _ h)
    · rcases List.mem_cons.mp h with h | h
      · exact Or.inr (h ▸ List.mem_cons_self)
      · exact (ih h).imp_right (List.mem_cons_of_mem _)

theorem mem_insertAll {a : Attributes} {pairs : List (Text × Text)} {e : Text × Text}
    (h : e ∈ (a.insertAll pairs).entries) : e ∈ pairs ∨ e ∈ a.entries := by
  induction pairs generalizing a with
  | nil => exact Or.inr h
  | cons first rest ih =>
    rcases ih h with h | h
    · exact Or.inl (List.mem_cons_of_mem _ h)
    · rcases mem_setEntry h with rfl | h
      · exact Or.inl List.mem_cons_self
      · exact Or.inr h

theorem unquote_subset (t : Text) : unquote t ⊆ t := by
  unfold unquote
  split
  · exact (t.tail.dropLast_sublist.trans t.tail_sublist).subset
  · exact fun _ h => h

theorem keyValue?_subset {piece key value : Text} (h : keyValue? piece = some (key, value)) :
    key ⊆ piece ∧ value ⊆ piece := by
  unfold keyValue? at h
  split at h
  · exact nomatch h
  · rename_i before after hcut
    have hpiece : piece = before ++ ':' :: after := Text.eq_of_cutAt hcut
    have hbefore : before ⊆ piece := hpiece ▸ List.subset_append_left before _
    have hafter : after ⊆ piece :=
      hpiece ▸ List.subset_append_of_subset_right _ (List.subset_cons_self _ _)
    dsimp only at h
    split at h
    · exact nomatch h
    · obtain ⟨rfl, rfl⟩ := Prod.mk.inj (Option.some.inj h)
      have hcut : ∀ t : Text, unquote (Text.trim t) ⊆ t := fun t =>
        List.Subset.trans (unquote_subset _) (Text.trim_subset t)
      exact ⟨List.Subset.trans (hcut before) hbefore, List.Subset.trans (hcut after) hafter⟩

theorem ofBlock_subset {inner : Text} {e : Text × Text} (h : e ∈ (ofBlock inner).entries) :
    e.1 ⊆ inner ∧ e.2 ⊆ inner := by
  rcases mem_insertAll h with h | h
  · obtain ⟨piece, hpiece, hkey⟩ := List.mem_filterMap.mp h
    obtain ⟨raw, hraw, rfl⟩ := List.mem_map.mp (List.mem_filter.mp hpiece).1
    have hsub : Text.trim raw ⊆ inner :=
      List.Subset.trans (Text.trim_subset raw) (Text.of_mem_splitOn hraw).2
    have hparts := keyValue?_subset hkey
    exact ⟨List.Subset.trans hparts.1 hsub, List.Subset.trans hparts.2 hsub⟩
  · exact absurd h List.not_mem_nil

theorem mem_of_get? {a : Attributes} {key value : Text} (h : a.get? key = some value) :
    (key, value) ∈ a.entries := by
  obtain ⟨before, after, hentries, -⟩ := List.lookup_eq_some_iff.mp h
  rw [hentries]
  exact List.mem_append_right _ List.mem_cons_self

end Attributes

/-! ### Reading only cuts -/

namespace Tag

/-- A name: a non-empty run of name characters. -/
def IsName (name : Text) : Prop :=
  name ≠ [] ∧ ∀ c ∈ name, isNameChar c = true

theorem IsName.bracket_notMem {name : Text} (h : IsName name) : '<' ∉ name := fun hmem =>
  absurd (h.2 '<' hmem) (by decide)

theorem IsName.head_ne_slash {name : Text} (h : IsName name) : ∀ c ∈ name.head?, c ≠ '/' := by
  rintro c hc rfl
  exact absurd (h.2 '/' (List.mem_of_mem_head? hc)) (by decide)

theorem printable_of_isNameChar {c : Char} (h : isNameChar c = true) :
    0x20 < c.toNat ∧ c.toNat < 0x7F := by
  simp only [isNameChar, Char.isAlphanum, Char.isAlpha, Char.isUpper, Char.isLower, Char.isDigit,
    Bool.or_eq_true, Bool.and_eq_true, decide_eq_true_eq, UInt32.le_iff_toNat_le] at h
  have hval : c.toNat = c.val.toNat := rfl
  -- An upper-case letter, a lower-case one, a digit or the hyphen.
  rcases h with ((h | h) | h) | rfl
  · change 65 ≤ c.val.toNat ∧ c.val.toNat ≤ 90 at h
    omega
  · change 97 ≤ c.val.toNat ∧ c.val.toNat ≤ 122 at h
    omega
  · change 48 ≤ c.val.toNat ∧ c.val.toNat ≤ 57 at h
    omega
  · decide

/-- Every part of a tag but the default name consists of characters of a line. -/
structure Within (line : Text) (tag : Tag) : Prop where
  name : tag.name = defaultName ∨ tag.name ⊆ line
  id : ∀ id ∈ tag.id, id ⊆ line
  classes : ∀ name ∈ tag.classes, name ⊆ line
  attributes : ∀ e ∈ tag.attributes.entries, e.1 ⊆ line ∧ e.2 ⊆ line
  content : ∀ content ∈ tag.content, content ⊆ line

theorem splitName_subset (line : Text) :
    ((splitName line).1 = defaultName ∨ (splitName line).1 ⊆ line) ∧
      (splitName line).2 ⊆ line := by
  unfold splitName
  split
  · rename_i rest
    refine ⟨?_, List.subset_cons_of_subset _ (List.dropWhile_sublist _).subset⟩
    dsimp only
    split
    · exact Or.inl rfl
    · exact Or.inr (List.subset_cons_of_subset _ (List.takeWhile_sublist _).subset)
  · exact ⟨Or.inl rfl, fun _ h => h⟩

theorem isName_splitName (line : Text) : IsName (splitName line).1 := by
  have hdefault : IsName defaultName := ⟨by decide, List.all_eq_true.mp (by decide)⟩
  unfold splitName
  split
  · dsimp only
    split
    · exact hdefault
    · rename_i hne
      exact ⟨hne, fun c hc => List.mem_takeWhile_imp hc⟩
  · exact hdefault

theorem aroundBlock_subset (text : Text) :
    (aroundBlock text (Block.find text)).1 ⊆ text ∧
      (aroundBlock text (Block.find text)).2 ⊆ text := by
  cases hfind : Block.find text with
  | absent => exact ⟨fun _ h => h, List.nil_subset _⟩
  | unclosed => exact ⟨fun _ h => h, List.nil_subset _⟩
  | closed before inner after =>
    have htext := Block.eq_of_find hfind
    constructor
    · intro c hc
      rw [htext, List.append_assoc]
      exact List.mem_append_left _ hc
    · intro c hc
      rw [htext]
      exact List.mem_append_right _ (List.mem_cons_of_mem _ hc)

theorem blockAttributes_subset (text : Text) :
    ∀ e ∈ (blockAttributes (Block.find text)).entries, e.1 ⊆ text ∧ e.2 ⊆ text := by
  intro e he
  cases hfind : Block.find text with
  | absent => rw [hfind] at he; exact absurd he List.not_mem_nil
  | unclosed => rw [hfind] at he; exact absurd he List.not_mem_nil
  | closed before inner after =>
    rw [hfind] at he
    have hinner : inner ⊆ text := by
      intro c hc
      rw [Block.eq_of_find hfind, List.append_assoc]
      exact List.mem_append_right _ (List.mem_cons_of_mem _ (List.mem_append_left _ hc))
    have hparts := Attributes.ofBlock_subset he
    exact ⟨List.Subset.trans hparts.1 hinner, List.Subset.trans hparts.2 hinner⟩

/-- The selectors of a line, and what they leave, consist of the text around the block. -/
theorem selectors_subset {line before after : Text} (hbefore : before ⊆ line)
    (hafter : after ⊆ line) :
    (∀ id ∈ (selectors before after).id, id ⊆ line) ∧
      (∀ name ∈ (selectors before after).classes, name ⊆ line) ∧
        (selectors before after).left ⊆ line := by
  obtain ⟨hid, hleft⟩ := Selector.takeFirst_subset '#' before
  -- What the second side is searched in is its own text, whether or not it is searched.
  have hsecond : ∀ second : Option Text × Text,
      second = (if (Selector.takeFirst '#' before).1.isSome then (none, after)
        else Selector.takeFirst '#' after) →
      (∀ id ∈ second.1, id ⊆ line) ∧ second.2 ⊆ line := by
    rintro second rfl
    split
    · exact ⟨fun _ h => (nomatch h), hafter⟩
    · obtain ⟨hid, hleft⟩ := Selector.takeFirst_subset '#' after
      exact ⟨fun id h => List.Subset.trans (hid id h) hafter, List.Subset.trans hleft hafter⟩
  obtain ⟨hid', hleft'⟩ := hsecond _ rfl
  refine ⟨fun id h => ?_, fun name h => ?_, fun c h => ?_⟩
  · rcases Option.or_eq_some_iff.mp h with h | ⟨-, h⟩
    · exact List.Subset.trans (hid id h) hbefore
    · exact hid' id h
  · rcases List.mem_append.mp h with h | h
    · exact List.Subset.trans ((Selector.takeAll_subset '.' _).1 name h)
        (List.Subset.trans hleft hbefore)
    · exact List.Subset.trans ((Selector.takeAll_subset '.' _).1 name h) hleft'
  · rcases List.mem_append.mp h with h | h
    · exact hbefore (hleft ((Selector.takeAll_subset '.' _).2 h))
    · exact hleft' ((Selector.takeAll_subset '.' _).2 h)

/-- Content is never empty, and it is the trim of what is left, or of what follows its `=`. -/
theorem of_contentOf {left content : Text} (h : contentOf left = some content) :
    content ≠ [] ∧
      (content = Text.trim left ∨
        ∃ rest, Text.trim left = '=' :: rest ∧ content = Text.trim rest) := by
  unfold contentOf at h
  obtain ⟨hne, hcontent⟩ := Option.ite_none_left_eq_some.mp h
  obtain rfl := Option.some.inj hcontent
  refine ⟨hne, ?_⟩
  split
  · rename_i rest htrim
    exact Or.inr ⟨rest, htrim, rfl⟩
  · exact Or.inl rfl

theorem contentOf_subset {left content : Text} (h : contentOf left = some content) :
    content ⊆ left := by
  rcases (of_contentOf h).2 with rfl | ⟨rest, htrim, rfl⟩
  · exact Text.trim_subset left
  · have hrest : rest ⊆ left := fun c hc =>
      Text.trim_subset left (htrim ▸ List.mem_cons_of_mem _ hc)
    exact List.Subset.trans (Text.trim_subset rest) hrest

/-- **Reading only cuts.** -/
theorem within_read (table : VoidTable) (line : Text) : (read table line).tag.Within line := by
  have htrim : Text.trim line ⊆ line := Text.trim_subset line
  obtain ⟨hname, hrest⟩ := splitName_subset (Text.trim line)
  have hrest' : (splitName (Text.trim line)).2 ⊆ line :=
    List.Subset.trans hrest htrim
  obtain ⟨hbefore, hafter⟩ := aroundBlock_subset (splitName (Text.trim line)).2
  obtain ⟨hid, hclasses, hleft⟩ :=
    selectors_subset (List.Subset.trans hbefore hrest') (List.Subset.trans hafter hrest')
  have hblock := blockAttributes_subset (splitName (Text.trim line)).2
  refine ⟨hname.imp_right fun h => List.Subset.trans h htrim, ?_, ?_, ?_, ?_⟩
  · -- An id is that of a selector, and that of the block only where there is none.
    intro id h
    rcases Option.or_eq_some_iff.mp h with h | ⟨-, h⟩
    · exact hid id h
    · exact List.Subset.trans (hblock _ (Attributes.mem_of_get? h)).2 hrest'
  · intro name h
    rcases List.mem_append.mp h with h | h
    · exact hclasses name h
    · -- A class of the block is a word of one of its values.
      cases hget : Attributes.get? (blockAttributes (Block.find (splitName (Text.trim line)).2))
          "class".toList with
      | none => rw [hget] at h; exact absurd h List.not_mem_nil
      | some value =>
        rw [hget] at h
        have hvalue : value ⊆ line :=
          List.Subset.trans (hblock _ (Attributes.mem_of_get? hget)).2 hrest'
        exact List.Subset.trans (Text.subset_of_mem_words h) hvalue
  · intro e he
    have hparts := hblock e (List.mem_filter.mp (List.mem_filter.mp he).1).1
    exact ⟨List.Subset.trans hparts.1 hrest', List.Subset.trans hparts.2 hrest'⟩
  · -- A void element has no content, whatever its line has left.
    intro content h
    change (if table.contains (splitName (Text.trim line)).1 then none else _) = some content at h
    split at h
    · exact nomatch h
    · exact List.Subset.trans (contentOf_subset h) hleft

theorem isName_read (table : VoidTable) (line : Text) : IsName (read table line).tag.name :=
  isName_splitName (Text.trim line)

@[simp] theorem isVoid_read (table : VoidTable) (line : Text) :
    (read table line).tag.isVoid = table.contains (read table line).tag.name := rfl

/-! ### Writing adds little -/

/-- The attributes of a start tag as they are written, each with the blank before it. -/
def assignments (tag : Tag) : Text :=
  tag.written.flatMap fun (key, value) => Fragment.assignment key value

theorem head_eq (tag : Tag) : tag.head = '<' :: (tag.name ++ tag.assignments) := rfl

theorem head_append (tag : Tag) (rest : Text) :
    tag.head ++ rest = '<' :: (tag.name ++ (tag.assignments ++ rest)) := by
  rw [head_eq, List.cons_append, List.append_assoc]

/-- The characters that writing adds to those of a tag, brackets apart. -/
def punctuation : Text :=
  " =\"&quot;idclass".toList

theorem escape_subset {text value : Text} (h : value ⊆ text ++ punctuation) :
    Fragment.escape value ⊆ text ++ punctuation := by
  intro c hc
  obtain ⟨d, hd, hc⟩ := List.mem_flatMap.mp hc
  -- A quote is written as an entity and every other character as itself.
  split at hc
  · have hquot : "&quot;".toList ⊆ punctuation := by decide
    exact List.mem_append_right _ (hquot hc)
  · obtain rfl : c = d := List.mem_singleton.mp hc
    exact h hd

theorem assignment_subset {text key value : Text} (hkey : key ⊆ text ++ punctuation)
    (hvalue : value ⊆ text ++ punctuation) :
    Fragment.assignment key value ⊆ text ++ punctuation := by
  have hmarks : [' ', '=', '"'] ⊆ text ++ punctuation :=
    List.subset_append_of_subset_right _ (by decide)
  intro c hc
  simp only [Fragment.assignment, List.cons_append, List.append_assoc, List.mem_cons,
    List.mem_append, List.not_mem_nil, or_false, false_or] at hc
  rcases hc with rfl | hc | rfl | rfl | hc | rfl
  · exact hmarks (by simp)
  · exact hkey hc
  · exact hmarks (by simp)
  · exact hmarks (by simp)
  · exact escape_subset hvalue hc
  · exact hmarks (by simp)

theorem intercalate_subset {text : Text} {words : List Text} (h : ∀ w ∈ words, w ⊆ text) :
    [' '].intercalate words ⊆ text ++ punctuation := by
  induction words with
  | nil => exact List.nil_subset _
  | cons first rest ih =>
    have hfirst : first ⊆ text ++ punctuation :=
      List.subset_append_of_subset_left _ (h first List.mem_cons_self)
    have hrest := ih fun w hw => h w (List.mem_cons_of_mem _ hw)
    cases rest with
    | nil => rw [List.intercalate_singleton]; exact hfirst
    | cons second others =>
      rw [List.intercalate_cons_cons]
      refine List.append_subset.mpr ⟨List.append_subset.mpr ⟨hfirst, ?_⟩, hrest⟩
      exact List.subset_append_of_subset_right _ (by decide)

theorem written_subset {line : Text} {tag : Tag} (h : tag.Within line) :
    ∀ e ∈ tag.written, e.1 ⊆ line ++ punctuation ∧ e.2 ⊆ line ++ punctuation := by
  have hid : "id".toList ⊆ line ++ punctuation :=
    List.subset_append_of_subset_right _ (by decide)
  have hclass : "class".toList ⊆ line ++ punctuation :=
    List.subset_append_of_subset_right _ (by decide)
  intro e he
  -- The id comes first, then the classes, then the other attributes.
  rcases List.mem_append.mp he with he | he
  · rcases List.mem_append.mp he with he | he
    · obtain ⟨id, hmem, rfl⟩ := List.mem_map.mp he
      exact ⟨hid, List.subset_append_of_subset_left _ (h.id id (Option.mem_toList.mp hmem))⟩
    · split at he
      · exact absurd he List.not_mem_nil
      · obtain rfl := List.mem_singleton.mp he
        exact ⟨hclass, intercalate_subset h.classes⟩
  · exact ⟨List.subset_append_of_subset_left _ (h.attributes e he).1,
      List.subset_append_of_subset_left _ (h.attributes e he).2⟩

theorem assignments_subset {line : Text} {tag : Tag} (h : tag.Within line) :
    tag.assignments ⊆ line ++ punctuation := by
  intro c hc
  obtain ⟨e, he, hc⟩ := List.mem_flatMap.mp hc
  exact assignment_subset (written_subset h e he).1 (written_subset h e he).2 hc

theorem bracket_notMem_assignments {line : Text} {tag : Tag} (hfree : '<' ∉ line)
    (h : tag.Within line) : '<' ∉ tag.assignments := by
  intro hmem
  rcases List.mem_append.mp (assignments_subset h hmem) with hmem | hmem
  · exact hfree hmem
  · exact absurd hmem (by decide)

/-- The written attributes, if there are any, begin with a blank and end with a quote. -/
theorem assignments_cases (tag : Tag) :
    tag.assignments = [] ∨ ∃ inside, tag.assignments = ' ' :: (inside ++ ['"']) := by
  unfold assignments
  -- The blank is that of the first attribute and the quote that of the last.
  induction tag.written with
  | nil => exact Or.inl rfl
  | cons e others ih =>
    obtain ⟨key, value⟩ := e
    have hfirst : Fragment.assignment key value =
        ' ' :: (key ++ ['=', '"'] ++ Fragment.escape value ++ ['"']) := rfl
    rw [List.flatMap_cons]
    dsimp only
    rw [hfirst]
    rcases ih with hnone | ⟨inside, hsome⟩
    · rw [hnone, List.append_nil]
      exact Or.inr ⟨_, rfl⟩
    · refine Or.inr ⟨key ++ ['=', '"'] ++ Fragment.escape value ++ ['"'] ++ ' ' :: inside, ?_⟩
      rw [hsome, List.cons_append, List.append_assoc _ (' ' :: inside), List.cons_append]

/-- What comes after the name of a start tag is a blank, or else what comes after the tag. -/
theorem head?_assignments_append {p : Char → Prop} (hblank : p ' ') (tag : Tag) {rest : Text}
    (hrest : ∀ c ∈ rest.head?, p c) : ∀ c ∈ (tag.assignments ++ rest).head?, p c := by
  rcases tag.assignments_cases with hnone | ⟨inside, hsome⟩
  · rwa [hnone, List.nil_append]
  · rw [hsome]
    exact Text.forall_head?_cons hblank _

/-- **What the fragment of a tag can be.** -/
theorem fragment_cases (style : VoidStyle) (tag : Tag) :
    (tag.isVoid = true ∧
      tag.fragment style = ⟨.void, tag.name, tag.head ++ style.terminator⟩) ∨
    (tag.isVoid = false ∧ ∃ content, tag.content = some content ∧
      tag.fragment style =
        ⟨.inline, tag.name, tag.head ++ ['>'] ++ content ++ Fragment.closingTag tag.name⟩) ∨
    (tag.isVoid = false ∧ tag.content = none ∧
      tag.fragment style = ⟨.opening, tag.name, tag.head ++ ['>']⟩) := by
  unfold fragment
  cases hvoid : tag.isVoid with
  | true => exact Or.inl ⟨rfl, rfl⟩
  | false =>
    cases hcontent : tag.content with
    | none => exact Or.inr (Or.inr ⟨rfl, rfl, rfl⟩)
    | some content => exact Or.inr (Or.inl ⟨rfl, content, rfl, rfl⟩)

@[simp] theorem name_fragment (style : VoidStyle) (tag : Tag) :
    (tag.fragment style).name = tag.name := by
  rcases fragment_cases style tag with ⟨-, h⟩ | ⟨-, content, -, h⟩ | ⟨-, -, h⟩ <;> rw [h]

theorem exists_terminator (style : VoidStyle) : ∃ start, style.terminator = start ++ ['>'] := by
  cases style with
  | xhtml => exact ⟨[' ', '/'], rfl⟩
  | html5 => exact ⟨[], rfl⟩
  | html4 => exact ⟨[], rfl⟩

/-- A fragment stands between two brackets. -/
theorem exists_fragment_html (style : VoidStyle) (tag : Tag) :
    ∃ inside, (tag.fragment style).html = '<' :: (inside ++ ['>']) := by
  rcases fragment_cases style tag with ⟨-, h⟩ | ⟨-, content, -, h⟩ | ⟨-, -, h⟩
  · obtain ⟨start, hstart⟩ := exists_terminator style
    refine ⟨tag.name ++ tag.assignments ++ start, ?_⟩
    rw [h, hstart, head_eq, List.cons_append, List.append_assoc _ start]
  · refine ⟨tag.name ++ tag.assignments ++ ['>'] ++ content ++ ['<', '/'] ++ tag.name, ?_⟩
    rw [h, head_eq, Fragment.closingTag]
    simp only [List.cons_append, List.append_assoc, List.nil_append]
  · exact ⟨tag.name ++ tag.assignments, by rw [h, head_eq, List.cons_append]⟩

theorem trimmed_fragment (style : VoidStyle) (tag : Tag) :
    Text.Trimmed (tag.fragment style).html := by
  obtain ⟨inside, hinside⟩ := exists_fragment_html style tag
  rw [hinside]
  exact Text.trimmed_of_ends (by decide) (by decide)

/-- The characters that a fragment may hold besides those of its line. -/
def brackets : Text :=
  "<>/div".toList

/-- **Writing adds little.** A fragment holds the characters of its line, the brackets and the
punctuation of attributes. -/
theorem fragment_subset {line : Text} {tag : Tag} (h : tag.Within line) (style : VoidStyle) :
    (tag.fragment style).html ⊆ line ++ punctuation ++ brackets := by
  have hmarks : ['<', '/', '>', ' '] ⊆ line ++ punctuation ++ brackets := by
    rw [List.append_assoc]
    exact List.subset_append_of_subset_right _ (by decide)
  have hname : tag.name ⊆ line ++ punctuation ++ brackets := by
    rcases h.name with hdefault | hline
    · rw [hdefault]
      exact List.subset_append_of_subset_right _ (by decide)
    · rw [List.append_assoc]
      exact List.subset_append_of_subset_left _ hline
  have hhead : tag.head ⊆ line ++ punctuation ++ brackets := by
    rw [head_eq]
    refine List.cons_subset.mpr ⟨hmarks (by simp), List.append_subset.mpr ⟨hname, ?_⟩⟩
    exact List.subset_append_of_subset_left _ (assignments_subset h)
  have hterminator : style.terminator ⊆ line ++ punctuation ++ brackets :=
    List.Subset.trans (by cases style <;> decide) hmarks
  have hclose : ['>'] ⊆ line ++ punctuation ++ brackets := List.Subset.trans (by decide) hmarks
  rcases fragment_cases style tag with ⟨-, hf⟩ | ⟨-, content, hcontent, hf⟩ | ⟨-, -, hf⟩
  · rw [hf]
    exact List.append_subset.mpr ⟨hhead, hterminator⟩
  · have hcontent' : content ⊆ line ++ punctuation ++ brackets := by
      rw [List.append_assoc]
      exact List.subset_append_of_subset_left _ (h.content content hcontent)
    have hopen : ['<', '/'] ⊆ line ++ punctuation ++ brackets :=
      List.Subset.trans (by decide) hmarks
    rw [hf, Fragment.closingTag]
    refine List.append_subset.mpr ⟨List.append_subset.mpr ⟨List.append_subset.mpr
      ⟨hhead, hclose⟩, hcontent'⟩, ?_⟩
    exact List.append_subset.mpr ⟨List.append_subset.mpr ⟨hopen, hname⟩, hclose⟩
  · rw [hf]
    exact List.append_subset.mpr ⟨hhead, hclose⟩

end Tag

theorem Fragment.trimmed_closingTag (name : Text) : Text.Trimmed (closingTag name) := by
  change Text.Trimmed ('<' :: ('/' :: name ++ ['>']))
  exact Text.trimmed_of_ends (by decide) (by decide)

end Offside
