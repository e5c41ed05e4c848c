import Offside.Proofs.Entries

/-!
# The form of a tag that was read

Whatever a line holds, the tag that is read from it has a certain form (`Tag.WellFormed`). Its name
is a name; its classes are words; its attributes have distinct keys, none of them empty and none of
them `id` or `class`; no separator of the block is left in a key or a value; and its content, which
a void element has not, is trimmed and not empty.

Each part owes its form to one pass, and the laws below follow the passes. A class is an identifier
(`Selector.isIdent_of_mem_takeAll`) or a word of the block. A key and a value come from a piece of
the block, which holds no comma, and the key from before its first colon (`Attributes.of_mem_pairs`);
that keys are distinct is a law of the map. Content is the trim of something.

The form is what writing needs. A tag is written with its identifier first, its classes second and
then the rest of the block in order, and since the block has given up its own `id` and `class`, no
attribute is written twice (`Tag.WellFormed.nodup_written`). **`Tag.wellFormed_read`** has both.
-/

namespace Offside

/-! ### Selectors -/

namespace Selector

theorem isBlank_of_isIdentChar {c : Char} (h : isIdentChar c = true) : isBlank c = false := by
  -- Beyond the characters of a name only the underscore is one of an identifier.
  by_cases hname : Tag.isNameChar c = true
  · obtain ⟨hlow, hhigh⟩ := Tag.printable_of_isNameChar hname
    exact isBlank_of_printable hlow hhigh
  · have hc : c = '_' := by
      simp only [isIdentChar, Tag.isNameChar, Bool.or_eq_true, decide_eq_true_eq] at h hname
      exact h.resolve_left hname
    rw [hc]
    decide

theorem isIdent_ident {t : Text} (h : ident t ≠ []) : IsIdent (ident t) :=
  ⟨h, fun _ hc => List.mem_takeWhile_imp hc⟩

theorem isIdent_of_mem_takeAll {mark : Char} {t token : Text} (h : token ∈ (takeAll mark t).1) :
    IsIdent token := by
  fun_induction takeAll mark t with
  | case1 => exact absurd h List.not_mem_nil
  | case2 c rest hmark later ih =>
    rcases List.mem_cons.mp h with rfl | h
    · exact isIdent_ident hmark.2
    · exact ih h
  | case3 c rest hmark later ih => exact ih h

end Selector

/-! ### The block -/

namespace Attributes

theorem comma_notMem_piece {inner piece : Text} (h : piece ∈ pieces inner) : ',' ∉ piece := by
  obtain ⟨raw, hraw, rfl⟩ := List.mem_map.mp (List.mem_filter.mp h).1
  exact fun hmem => (Text.of_mem_splitOn hraw).1 (Text.trim_subset raw hmem)

theorem entryKey_subset (piece : Text) : entryKey piece ⊆ piece.takeWhile (· != ':') :=
  List.Subset.trans (unquote_subset _) (Text.trim_subset _)

theorem entryValue_subset (piece : Text) : entryValue piece ⊆ piece :=
  List.Subset.trans (List.Subset.trans (unquote_subset _) (Text.trim_subset _))
    ((List.tail_sublist _).trans (List.dropWhile_sublist _)).subset

/-- A pair that a block sets has a key, and neither part holds what separates them. -/
theorem of_mem_pairs {inner : Text} {e : Text × Text} (h : e ∈ pairs inner) :
    e.1 ≠ [] ∧ ',' ∉ e.1 ∧ ':' ∉ e.1 ∧ ',' ∉ e.2 := by
  obtain ⟨piece, hpiece, rfl⟩ := List.mem_map.mp h
  obtain ⟨hmem, hentry⟩ := List.mem_filter.mp hpiece
  have hentry : IsEntry piece := of_decide_eq_true hentry
  have hcomma : ',' ∉ piece := comma_notMem_piece hmem
  refine ⟨hentry.2, fun hkey => ?_, fun hkey => ?_, fun hvalue => ?_⟩
  · exact hcomma ((List.takeWhile_sublist _).subset (entryKey_subset piece hkey))
  · -- The key comes from before the first colon.
    have hbefore := List.mem_takeWhile_imp (entryKey_subset piece hkey)
    simp at hbefore
  · exact hcomma (entryValue_subset piece hvalue)

theorem mem_pairs_of_mem_ofBlock {inner : Text} {e : Text × Text}
    (h : e ∈ (ofBlock inner).entries) : e ∈ pairs inner := by
  rw [ofBlock_eq] at h
  exact (mem_insertAll h).resolve_right List.not_mem_nil

theorem nodup_erase {a : Attributes} (h : a.keys.Nodup) (key : Text) : (a.erase key).keys.Nodup :=
  h.sublist (List.filter_sublist.map Prod.fst)

theorem keys_erase (a : Attributes) (key : Text) :
    (a.erase key).keys = a.keys.filter (· ≠ key) := by
  show (a.entries.filter (·.1 ≠ key)).map Prod.fst = (a.entries.map Prod.fst).filter (· ≠ key)
  rw [List.filter_map]
  rfl

end Attributes

namespace Tag

/-- The block of a line is looked for after the name. -/
def lineBlock (line : Text) : Block :=
  Block.find (splitName (Text.trim line)).2

/-- The keys of the entries of a block, in order of first occurrence. -/
def blockKeys : Block → List Text
  | .closed _ inner _ => ((Attributes.accepted inner).map Attributes.entryKey).eraseDups
  | _ => []

theorem keys_blockAttributes (block : Block) : (blockAttributes block).keys = blockKeys block := by
  cases block with
  | absent => rfl
  | unclosed => rfl
  | closed before inner after => exact Attributes.keys_ofBlock inner

theorem nodup_blockAttributes (block : Block) : (blockAttributes block).keys.Nodup := by
  cases block with
  | absent => exact List.nodup_nil
  | unclosed => exact List.nodup_nil
  | closed before inner after => exact Attributes.nodup_ofBlock inner

theorem of_mem_blockAttributes {block : Block} {e : Text × Text}
    (h : e ∈ (blockAttributes block).entries) :
    e.1 ≠ [] ∧ ',' ∉ e.1 ∧ ':' ∉ e.1 ∧ ',' ∉ e.2 := by
  cases block with
  | absent => exact absurd h List.not_mem_nil
  | unclosed => exact absurd h List.not_mem_nil
  | closed before inner after => exact Attributes.of_mem_pairs (Attributes.mem_pairs_of_mem_ofBlock h)

/-! ### The form -/

/-- The form that every tag has that was read from a line. -/
structure WellFormed (table : VoidTable) (tag : Tag) : Prop where
  name : IsName tag.name
  isVoid : tag.isVoid = table.contains tag.name
  classes : ∀ name ∈ tag.classes, name ≠ [] ∧ ∀ c ∈ name, isBlank c = false
  distinct : tag.attributes.keys.Nodup
  key : ∀ key ∈ tag.attributes.keys, key ≠ [] ∧ key ≠ "id".toList ∧ key ≠ "class".toList ∧
    ',' ∉ key ∧ ':' ∉ key
  value : ∀ e ∈ tag.attributes.entries, ',' ∉ e.2
  content : ∀ content ∈ tag.content, content ≠ [] ∧ Text.trim content = content
  /-- A void element has no content. -/
  void : tag.isVoid = true → tag.content = none

/-- The keys `id` and `class` of the block go to fields of their own; the others stay in order. -/
theorem keys_read (table : VoidTable) (line : Text) :
    (read table line).tag.attributes.keys =
      (blockKeys (lineBlock line)).filter fun key => key ≠ "id".toList ∧ key ≠ "class".toList := by
  have hkeys : (read table line).tag.attributes.keys =
      ((blockAttributes (lineBlock line)).keys.filter (· ≠ "id".toList)).filter
        (· ≠ "class".toList) :=
    (Attributes.keys_erase _ _).trans (congrArg _ (Attributes.keys_erase _ _))
  rw [hkeys, keys_blockAttributes, List.filter_filter]
  refine List.filter_congr fun key _ => ?_
  rw [Bool.and_comm, ← Bool.decide_and]

theorem mem_blockAttributes_of_mem_read {table : VoidTable} {line : Text} {e : Text × Text}
    (h : e ∈ (read table line).tag.attributes.entries) :
    e ∈ (blockAttributes (lineBlock line)).entries :=
  (List.mem_filter.mp (List.mem_filter.mp h).1).1

/-- The attributes of a tag that was read have different keys. -/
theorem nodup_keys_read (table : VoidTable) (line : Text) :
    (read table line).tag.attributes.keys.Nodup :=
  Attributes.nodup_erase (Attributes.nodup_erase (nodup_blockAttributes (lineBlock line)) _) _

theorem of_mem_keys_read {table : VoidTable} {line key : Text}
    (h : key ∈ (read table line).tag.attributes.keys) :
    key ≠ [] ∧ key ≠ "id".toList ∧ key ≠ "class".toList ∧ ',' ∉ key ∧ ':' ∉ key := by
  obtain ⟨e, he, rfl⟩ := List.mem_map.mp h
  obtain ⟨hne, hcomma, hcolon, -⟩ :=
    of_mem_blockAttributes (mem_blockAttributes_of_mem_read he)
  rw [keys_read] at h
  obtain ⟨hid, hclass⟩ := of_decide_eq_true (List.mem_filter.mp h).2
  exact ⟨hne, hid, hclass, hcomma, hcolon⟩

theorem of_mem_selectors {before after name : Text}
    (h : name ∈ (selectors before after).classes) : Selector.IsIdent name := by
  rcases List.mem_append.mp h with h | h
  · exact Selector.isIdent_of_mem_takeAll h
  · exact Selector.isIdent_of_mem_takeAll h

theorem of_mem_classes_read {table : VoidTable} {line name : Text}
    (h : name ∈ (read table line).tag.classes) : name ≠ [] ∧ ∀ c ∈ name, isBlank c = false := by
  rcases List.mem_append.mp h with h | h
  · obtain ⟨hne, hident⟩ := of_mem_selectors h
    exact ⟨hne, fun c hc => Selector.isBlank_of_isIdentChar (hident c hc)⟩
  · -- A class of the block is a word of its value for `class`, if it has one.
    obtain ⟨value, hword⟩ : ∃ value, name ∈ Text.words value := by
      change name ∈
        (((blockAttributes (lineBlock line)).get? "class".toList).map Text.words).getD [] at h
      cases hget : (blockAttributes (lineBlock line)).get? "class".toList with
      | none =>
        rw [hget] at h
        exact absurd h List.not_mem_nil
      | some value =>
        rw [hget] at h
        exact ⟨value, h⟩
    obtain ⟨hpiece, hne⟩ := List.mem_filter.mp hword
    exact ⟨of_decide_eq_true hne, (Text.of_mem_splitOnP hpiece).1⟩

theorem trim_of_contentOf {left content : Text} (h : contentOf left = some content) :
    content ≠ [] ∧ Text.trim content = content := by
  obtain ⟨hne, hcontent⟩ := of_contentOf h
  refine ⟨hne, ?_⟩
  rcases hcontent with rfl | ⟨rest, -, rfl⟩
  · exact Text.trim_trim left
  · exact Text.trim_trim rest

/-- The content of a line goes to its tag unless the element is void. -/
theorem content_read_cases (table : VoidTable) (line : Text) :
    (read table line).tag.content = none ∨
      (read table line).tag.isVoid = false ∧
        ∃ left, (read table line).tag.content = contentOf left := by
  by_cases hvoid : (read table line).tag.isVoid = true
  · exact Or.inl (if_pos hvoid)
  · exact Or.inr ⟨Bool.eq_false_iff.mpr hvoid, _, if_neg hvoid⟩

/-! ### What is written -/

theorem map_fst_written (tag : Tag) :
    tag.written.map Prod.fst = (tag.id.toList.map fun _ => "id".toList) ++
      (if tag.classes = [] then [] else ["class".toList]) ++ tag.attributes.keys := by
  unfold written Attributes.keys
  rw [List.map_append, List.map_append, List.map_map, apply_ite (List.map Prod.fst)]
  rfl

/-- **No attribute is written twice.** -/
theorem WellFormed.nodup_written {table : VoidTable} {tag : Tag} (h : tag.WellFormed table) :
    (tag.written.map Prod.fst).Nodup := by
  have hid : (tag.id.toList.map fun _ => "id".toList).Nodup := by
    cases tag.id with
    | none => exact List.nodup_nil
    | some id => exact List.nodup_singleton _
  have hclass : (if tag.classes = [] then [] else ["class".toList]).Nodup := by
    split
    · exact List.nodup_nil
    · exact List.nodup_singleton _
  -- Whatever stands before the other attributes is one of the two words.
  have hfirst : ∀ key ∈ tag.id.toList.map fun _ => "id".toList, key = "id".toList := by
    intro key hkey
    obtain ⟨_, -, rfl⟩ := List.mem_map.mp hkey
    rfl
  have hsecond : ∀ key ∈ (if tag.classes = [] then [] else ["class".toList]),
      key = "class".toList := by
    intro key hkey
    split at hkey
    · exact absurd hkey List.not_mem_nil
    · exact List.mem_singleton.mp hkey
  rw [map_fst_written]
  refine List.nodup_append.mpr ⟨List.nodup_append.mpr ⟨hid, hclass, ?_⟩, h.distinct, ?_⟩
  · intro key hkey key' hkey'
    rw [hfirst key hkey, hsecond key' hkey']
    decide
  · intro key hkey key' hkey'
    obtain ⟨-, hneid, hneclass, -⟩ := h.key key' hkey'
    rcases List.mem_append.mp hkey with hkey | hkey
    · exact hfirst key hkey ▸ hneid.symm
    · exact hsecond key hkey ▸ hneclass.symm

/-- A start tag is its name, its attributes as they are written, and its end. -/
theorem exists_ending (style : VoidStyle) (tag : Tag) :
    ∃ ending, (tag.fragment style).html = '<' :: (tag.name ++
        (tag.written.flatMap (fun e => Fragment.assignment e.1 e.2) ++ ending)) ∧
      (ending = style.terminator ∨ ending.head? = some '>') := by
  rcases fragment_cases style tag with ⟨-, h⟩ | ⟨-, content, -, h⟩ | ⟨-, -, h⟩
  · exact ⟨style.terminator, by rw [h]; exact head_append tag _, Or.inl rfl⟩
  · refine ⟨'>' :: (content ++ Fragment.closingTag tag.name), ?_, Or.inr rfl⟩
    rw [h, List.append_assoc, List.append_assoc]
    exact head_append tag _
  · exact ⟨['>'], by rw [h]; exact head_append tag _, Or.inr rfl⟩

/-- **Every line is read as a tag of the right form,** and the tag is written with its identifier
first, its classes second and then the other keys of the block in order, none of them twice. -/
theorem wellFormed_read (table : VoidTable) (line : Text) :
    (read table line).tag.WellFormed table ∧
    ((read table line).tag.written.map Prod.fst).Nodup ∧
    (read table line).tag.written.map Prod.fst =
      ((read table line).tag.id.toList.map fun _ => "id".toList) ++
        (if (read table line).tag.classes = [] then [] else ["class".toList]) ++
          (blockKeys (lineBlock line)).filter
            (fun key => key ≠ "id".toList ∧ key ≠ "class".toList) ∧
    ∀ style, ∃ ending, ((read table line).tag.fragment style).html =
        '<' :: ((read table line).tag.name ++
          ((read table line).tag.written.flatMap (fun e => Fragment.assignment e.1 e.2) ++
            ending)) ∧
      (ending = style.terminator ∨ ending.head? = some '>') := by
  have hform : (read table line).tag.WellFormed table :=
    { name := isName_read table line
      isVoid := isVoid_read table line
      classes := fun _ hname => of_mem_classes_read hname
      distinct := nodup_keys_read table line
      key := fun _ hkey => of_mem_keys_read hkey
      value := fun e he => (of_mem_blockAttributes (mem_blockAttributes_of_mem_read he)).2.2.2
      -- Content and voidness exclude each other, so both fields come from one case split.
      content := by
        intro content hcontent
        rcases content_read_cases table line with hnone | ⟨-, left, hleft⟩
        · rw [hnone] at hcontent
          cases hcontent
        · exact trim_of_contentOf (hleft.symm.trans hcontent)
      void := by
        intro hvoid
        rcases content_read_cases table line with hnone | ⟨hnot, -⟩
        · exact hnone
        · rw [hvoid] at hnot
          cases hnot }
  refine ⟨hform, hform.nodup_written, ?_, fun style => exists_ending style _⟩
  rw [map_fst_written, keys_read]

end Tag

end Offside
