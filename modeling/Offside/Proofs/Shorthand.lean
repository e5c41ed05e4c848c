import Offside.Proofs.Passes

/-!
# Composed tag lines

A tag line can be put together from the parts of a tag: the name after its mark, the identifier
and the classes after theirs, the attributes between braces with every key and value in quotes,
and the content after a blank (`Shorthand.line`). Reading the line gives the parts back and finds
nothing to report (`Shorthand.read_line`).

Keys, values and content are nearly free. They may hold braces, apostrophes, marks and signs of
equality, and blanks at either end of a key or a value, since the quotes keep all of these from
the passes that look for them. What a part may not hold is what would end it
(`Shorthand.Plain`): a double quote or a comma, in a key also a colon, and in the content a mark
that a selector pass would take.

The proof follows the passes. Each of them finds its own piece of the line and leaves the others
whole: `splitName_line`, `find_rest`, `selectors_marks`, `ofBlock_inner` and `contentOf_tail`.
-/

namespace Offside

/-- The parts that a tag line is composed of. -/
structure Shorthand where
  name : Text
  id : Option Text := none
  classes : List Text := []
  attributes : List (Text × Text) := []
  content : Option Text := none
  deriving DecidableEq, Repr

namespace Shorthand

/-! ### Composing -/

def quoted (t : Text) : Text :=
  '"' :: (t ++ ['"'])

/-- One attribute of the block: the key and the value, both in quotes. -/
def entry (e : Text × Text) : Text :=
  quoted e.1 ++ ':' :: ' ' :: quoted e.2

/-- The identifier and the classes, each behind its mark. -/
def marks (s : Shorthand) : Text :=
  s.id.elim [] ('#' :: ·) ++ s.classes.flatMap ('.' :: ·)

/-- The inside of the block: the entries with a comma and a blank between each two. -/
def inner (s : Shorthand) : Text :=
  [',', ' '].intercalate (s.attributes.map entry)

/-- The content, behind a blank. -/
def tail (s : Shorthand) : Text :=
  s.content.elim [] (' ' :: ·)

/-- The tag line. -/
def line (s : Shorthand) : Text :=
  '%' :: (s.name ++ (s.marks ++ '{' :: (s.inner ++ '}' :: s.tail)))

/-- The tag that the parts describe. -/
def tag (table : VoidTable) (s : Shorthand) : Tag where
  name := s.name
  id := s.id
  classes := s.classes
  attributes := ⟨s.attributes⟩
  content := s.content
  isVoid := table.contains s.name

/-- Every part keeps clear of what would end it. -/
structure Plain (table : VoidTable) (s : Shorthand) : Prop where
  name : Tag.IsName s.name
  id : ∀ id ∈ s.id, Selector.IsIdent id
  classes : ∀ name ∈ s.classes, Selector.IsIdent name
  distinct : (s.attributes.map Prod.fst).Nodup
  /-- The keys `id` and `class` stand for the identifier and the classes and are no attributes. -/
  key : ∀ e ∈ s.attributes, e.1 ≠ [] ∧ e.1 ≠ "id".toList ∧ e.1 ≠ "class".toList ∧
    '"' ∉ e.1 ∧ ',' ∉ e.1 ∧ ':' ∉ e.1
  value : ∀ e ∈ s.attributes, '"' ∉ e.2 ∧ ',' ∉ e.2
  content : ∀ content ∈ s.content, content ≠ [] ∧ Text.trim content = content ∧
    content.head? ≠ some '=' ∧ Selector.Unmarked '.' content ∧
      (s.id = none → Selector.Unmarked '#' content)
  /-- A void element has no content. -/
  void : table.contains s.name = true → s.content = none

variable {table : VoidTable} {s : Shorthand}

/-! ### The name -/

theorem trimmed_line (h : s.Plain table) : Text.Trimmed s.line where
  head := Text.forall_head?_cons (by decide) _
  last := by
    intro c hc
    -- The line ends with its content, or with the brace if it has none.
    cases hcontent : s.content with
    | none =>
      have hline : s.line = '%' :: (s.name ++ (s.marks ++ '{' :: s.inner)) ++ ['}'] := by
        simp [line, tail, hcontent]
      rw [hline, List.getLast?_concat] at hc
      obtain rfl : '}' = c := Option.some.inj hc
      decide
    | some content =>
      obtain ⟨hne, htrim, -⟩ := h.content content hcontent
      have hline : s.line =
          '%' :: (s.name ++ (s.marks ++ '{' :: (s.inner ++ ['}', ' ']))) ++ content := by
        simp [line, tail, hcontent]
      rw [hline, List.getLast?_append_of_ne_nil _ hne] at hc
      exact ((Text.trim_eq_self_iff content).mp htrim).last c hc

/-- A character that may follow the name does not continue it. -/
theorem splitName_line (h : s.Plain table) :
    Tag.splitName s.line = (s.name, s.marks ++ '{' :: (s.inner ++ '}' :: s.tail)) := by
  have hstop : ∀ c ∈ (s.marks ++ '{' :: (s.inner ++ '}' :: s.tail)).head?,
      Tag.isNameChar c = false := by
    unfold marks
    -- The mark of the identifier, that of the first class, or the brace.
    cases s.id with
    | some id => exact Text.forall_head?_cons (by decide) _
    | none =>
      cases s.classes with
      | nil => exact Text.forall_head?_cons (by decide) _
      | cons first classes => exact Text.forall_head?_cons (by decide) _
  rw [line, Tag.splitName, Text.takeWhile_run h.name.2 hstop, Text.dropWhile_run h.name.2 hstop,
    if_neg h.name.1]

/-! ### The block -/

theorem close_quotedText {depth : Nat} {previous : Char} {t rest inner after : Text}
    (hprevious : Block.admitsQuote previous = true) (ht : '"' ∉ t)
    (h : Block.close depth none '"' rest = some (inner, after)) :
    Block.close depth none previous (quoted t ++ rest) = some (quoted t ++ inner, after) := by
  have happend : ∀ u : Text, quoted t ++ u = '"' :: (t ++ '"' :: u) := fun u => by
    simp [quoted]
  rw [happend, happend]
  exact Block.close_run (by decide) hprevious ht h

/-- An entry is two quoted runs with a colon and a blank between them. -/
theorem close_entry {depth : Nat} {previous : Char} {e : Text × Text} {rest inner after : Text}
    (hprevious : Block.admitsQuote previous = true) (hkey : '"' ∉ e.1) (hvalue : '"' ∉ e.2)
    (h : Block.close depth none '"' rest = some (inner, after)) :
    Block.close depth none previous (entry e ++ rest) = some (entry e ++ inner, after) := by
  have happend : ∀ u : Text, entry e ++ u = quoted e.1 ++ ':' :: ' ' :: (quoted e.2 ++ u) :=
    fun u => by simp [entry]
  rw [happend, happend]
  refine close_quotedText hprevious hkey ?_
  refine Block.close_plain (by decide) (by decide) (by decide) ?_
  refine Block.close_plain (by decide) (by decide) (by decide) ?_
  exact close_quotedText (by decide) hvalue h

/-- No brace of a key or a value is seen, so the region closes after the last entry. -/
theorem close_entries {entries : List (Text × Text)}
    (hentries : ∀ e ∈ entries, '"' ∉ e.1 ∧ '"' ∉ e.2) {previous : Char}
    (hprevious : Block.admitsQuote previous = true) (after : Text) :
    Block.close 0 none previous ([',', ' '].intercalate (entries.map entry) ++ '}' :: after) =
      some ([',', ' '].intercalate (entries.map entry), after) := by
  induction entries generalizing previous with
  | nil => exact Block.close_brace previous after
  | cons e entries ih =>
    obtain ⟨hkey, hvalue⟩ := hentries e List.mem_cons_self
    cases entries with
    | nil =>
      have hclose := close_entry hprevious hkey hvalue (Block.close_brace '"' after)
      rw [List.append_nil] at hclose
      rw [List.map_singleton, List.intercalate_singleton]
      exact hclose
    | cons second entries =>
      have hrest := ih (fun e' he' => hentries e' (List.mem_cons_of_mem _ he'))
        (show Block.admitsQuote ' ' = true by decide)
      -- After a comma and a blank the next entry begins in the same way as the first.
      rw [List.map_cons, List.map_cons, List.intercalate_cons_cons, ← List.map_cons,
        List.append_assoc, List.append_assoc, List.append_assoc]
      refine close_entry hprevious hkey hvalue ?_
      refine Block.close_plain (by decide) (by decide) (by decide) ?_
      exact Block.close_plain (by decide) (by decide) (by decide) hrest

theorem brace_notMem_marks (h : s.Plain table) : '{' ∉ s.marks := by
  have hident : ∀ token, Selector.IsIdent token → '{' ∉ token := fun token htoken hmem =>
    absurd (htoken.2 '{' hmem) (by decide)
  intro hmem
  rcases List.mem_append.mp hmem with hmem | hmem
  · cases hid : s.id with
    | none => rw [hid] at hmem; exact absurd hmem List.not_mem_nil
    | some id =>
      rw [hid] at hmem
      rcases List.mem_cons.mp hmem with hmark | hmem
      · exact absurd hmark (by decide)
      · exact hident id (h.id id hid) hmem
  · obtain ⟨name, hname, hmem⟩ := List.mem_flatMap.mp hmem
    rcases List.mem_cons.mp hmem with hmark | hmem
    · exact absurd hmark (by decide)
    · exact hident name (h.classes name hname) hmem

theorem find_rest (h : s.Plain table) :
    Block.find (s.marks ++ '{' :: (s.inner ++ '}' :: s.tail)) =
      .closed s.marks s.inner s.tail := by
  have hentries : ∀ e ∈ s.attributes, '"' ∉ e.1 ∧ '"' ∉ e.2 := by
    intro e he
    obtain ⟨-, -, -, hkey, -, -⟩ := h.key e he
    exact ⟨hkey, (h.value e he).1⟩
  refine Block.find_append (brace_notMem_marks h) ?_
  exact close_entries hentries (by decide) s.tail

/-! ### The selectors -/

/-- The pass for a mark leaves the text after the block alone. -/
theorem unmarked_tail {mark : Char} (hmark : mark ≠ ' ')
    (h : ∀ content ∈ s.content, Selector.Unmarked mark content) :
    Selector.Unmarked mark s.tail := by
  unfold tail
  cases hcontent : s.content with
  | none => exact Selector.unmarked_of_notMem List.not_mem_nil
  | some content =>
    refine Selector.unmarked_cons_iff.mpr ⟨?_, h content hcontent⟩
    exact fun hhead => hmark hhead.1.symm

/-- **The selector passes find the identifier and the classes and nothing else.** -/
theorem selectors_marks (h : s.Plain table) :
    Tag.selectors s.marks s.tail = ⟨s.id, s.classes, s.tail⟩ := by
  have hclasses : Selector.takeAll '.' (s.classes.flatMap ('.' :: ·)) = (s.classes, []) :=
    Selector.takeAll_flatMap (by decide) h.classes
  have htail : Selector.takeAll '.' s.tail = ([], s.tail) :=
    Selector.takeAll_of_unmarked (unmarked_tail (by decide) fun content hcontent =>
      (h.content content hcontent).2.2.2.1)
  unfold Tag.selectors marks
  cases hid : s.id with
  | some id =>
    -- With an identifier before the block, the text after it is not searched for one.
    have hfirst : Selector.takeFirst '#' ('#' :: (id ++ s.classes.flatMap ('.' :: ·))) =
        (some id, s.classes.flatMap ('.' :: ·)) :=
      Selector.takeFirst_marked '#' (h.id id hid)
        (Selector.head?_flatMap_marked (by decide) s.classes)
    rw [Option.elim_some, List.cons_append, hfirst]
    dsimp only
    rw [Option.isSome_some, if_pos rfl, hclasses, htail, List.append_nil]
    rfl
  | none =>
    -- Without one, neither side has a mark that an identifier follows.
    have hbefore : Selector.takeFirst '#' (s.classes.flatMap ('.' :: ·)) =
        (none, s.classes.flatMap ('.' :: ·)) := by
      refine Selector.takeFirst_of_unmarked (Selector.unmarked_of_notMem fun hmem => ?_)
      obtain ⟨name, hname, hmem⟩ := List.mem_flatMap.mp hmem
      rcases List.mem_cons.mp hmem with hmark | hmem
      · exact absurd hmark (by decide)
      · exact absurd ((h.classes name hname).2 '#' hmem) (by decide)
    have hafter : Selector.takeFirst '#' s.tail = (none, s.tail) :=
      Selector.takeFirst_of_unmarked (unmarked_tail (by decide) fun content hcontent =>
        (h.content content hcontent).2.2.2.2 hid)
    rw [Option.elim_none, List.nil_append, hbefore]
    dsimp only
    rw [Option.isSome_none, if_neg Bool.false_ne_true, hafter, hclasses, htail, List.append_nil]
    rfl

/-! ### The attributes -/

theorem trim_quoted (t : Text) : Text.trim (quoted t) = quoted t :=
  (Text.trimmed_of_ends (by decide) (by decide)).trim_eq

theorem trim_entry (e : Text × Text) : Text.trim (entry e) = entry e := by
  have hends : entry e = '"' :: (e.1 ++ '"' :: ':' :: ' ' :: '"' :: e.2 ++ ['"']) := by
    simp [entry, quoted]
  rw [hends]
  exact (Text.trimmed_of_ends (by decide) (by decide)).trim_eq

theorem comma_notMem_entry {e : Text × Text} (hkey : ',' ∉ e.1) (hvalue : ',' ∉ e.2) :
    ',' ∉ entry e := by
  simp [entry, quoted, hkey, hvalue]

/-- An entry is cut at the colon after its key and both parts lose their quotes. -/
theorem keyValue?_entry {e : Text × Text} (hne : e.1 ≠ []) (hcolon : ':' ∉ e.1) :
    Attributes.keyValue? (entry e) = some e := by
  have hcut : Text.cutAt ':' (entry e) = some (quoted e.1, ' ' :: quoted e.2) :=
    Text.cutAt_append (by simp [quoted, hcolon]) _
  have hvalue : Text.trim (' ' :: quoted e.2) = quoted e.2 :=
    (Text.trim_cons_of_blank (by decide) _).trans (trim_quoted e.2)
  have hunquote : ∀ t, Attributes.unquote (quoted t) = t := Attributes.unquote_quoted
  rw [Attributes.keyValue?, hcut]
  dsimp only
  rw [trim_quoted, hvalue, hunquote, hunquote, if_neg hne]

/-- The commas between the entries are the only ones, so the pieces are the entries. The blanks
in front stand for the one that follows a comma. -/
theorem pieces_entries {entries : List (Text × Text)}
    (hentries : ∀ e ∈ entries, ',' ∉ e.1 ∧ ',' ∉ e.2) {front : Text}
    (hfront : ∀ c ∈ front, isBlank c = true) (hcomma : ',' ∉ front) :
    Attributes.pieces (front ++ [',', ' '].intercalate (entries.map entry)) =
      entries.map entry := by
  induction entries generalizing front with
  | nil =>
    have htrim : Text.trim front = [] := by
      have hnil := Text.trim_append_of_blank hfront []
      rwa [List.append_nil] at hnil
    rw [List.map_nil, List.intercalate_nil, List.append_nil, Attributes.pieces,
      List.splitOn_eq_singleton hcomma, List.map_singleton, htrim]
    rfl
  | cons e entries ih =>
    obtain ⟨hkey, hvalue⟩ := hentries e List.mem_cons_self
    have htrim : Text.trim (front ++ entry e) = entry e :=
      (Text.trim_append_of_blank hfront _).trans (trim_entry e)
    have hfirst : Attributes.pieces (front ++ entry e) = [entry e] := by
      have hfree : ',' ∉ front ++ entry e := by
        rw [List.mem_append, not_or]
        exact ⟨hcomma, comma_notMem_entry hkey hvalue⟩
      rw [Attributes.pieces_of_free hfree (by rw [htrim]; exact List.cons_ne_nil _ _), htrim]
    cases entries with
    | nil =>
      rw [List.map_singleton, List.intercalate_singleton]
      exact hfirst
    | cons second entries =>
      have hblank : ∀ c ∈ [' '], isBlank c = true := List.forall_mem_singleton.mpr (by decide)
      have hrest := ih (fun e' he' => hentries e' (List.mem_cons_of_mem _ he')) hblank
        (by decide)
      have hsplit : front ++ [',', ' '].intercalate ((e :: second :: entries).map entry) =
          (front ++ entry e) ++
            ',' :: ([' '] ++ [',', ' '].intercalate ((second :: entries).map entry)) := by
        rw [List.map_cons, List.map_cons, List.intercalate_cons_cons]
        simp
      rw [hsplit, Attributes.pieces_append, hfirst, hrest]
      rfl

theorem pieces_inner (h : s.Plain table) :
    Attributes.pieces s.inner = s.attributes.map entry := by
  have hcommas : ∀ e ∈ s.attributes, ',' ∉ e.1 ∧ ',' ∉ e.2 := by
    intro e he
    obtain ⟨-, -, -, -, hkey, -⟩ := h.key e he
    exact ⟨hkey, (h.value e he).2⟩
  exact pieces_entries hcommas (List.forall_mem_nil _) List.not_mem_nil

theorem keyValue?_of_mem (h : s.Plain table) {e : Text × Text} (he : e ∈ s.attributes) :
    Attributes.keyValue? (entry e) = some e := by
  obtain ⟨hne, -, -, -, -, hcolon⟩ := h.key e he
  exact keyValue?_entry hne hcolon

theorem ofBlock_inner (h : s.Plain table) : Attributes.ofBlock s.inner = ⟨s.attributes⟩ := by
  have hpairs : (s.attributes.map entry).filterMap Attributes.keyValue? = s.attributes := by
    rw [List.filterMap_map]
    exact (List.filterMap_congr fun e he => keyValue?_of_mem h he).trans List.filterMap_some
  rw [Attributes.ofBlock, pieces_inner h, hpairs]
  exact Attributes.ofList_of_nodup h.distinct

theorem rejected_inner (h : s.Plain table) : Attributes.rejected s.inner = [] := by
  rw [Attributes.rejected, pieces_inner h]
  refine List.filter_eq_nil_iff.mpr fun piece hpiece => ?_
  obtain ⟨e, he, rfl⟩ := List.mem_map.mp hpiece
  rw [keyValue?_of_mem h he]
  exact Bool.false_ne_true

/-! ### The content -/

theorem contentOf_tail (h : s.Plain table) : Tag.contentOf s.tail = s.content := by
  unfold tail
  cases hcontent : s.content with
  | none => rfl
  | some content =>
    obtain ⟨hne, htrim, hequal, -, -⟩ := h.content content hcontent
    have hleft : Text.trim (' ' :: content) = content :=
      (Text.trim_cons_of_blank (by decide) _).trans htrim
    rw [Option.elim_some, Tag.contentOf, hleft]
    -- No sign of equality is there to be dropped.
    split
    · rename_i rest
      exact absurd rfl hequal
    · rw [if_neg hne]

/-! ### The line -/

/-- **A composed line is read back.** For every table and all parts that keep clear of what would
end them, the line is read without a remark as exactly the tag that the parts describe. -/
theorem read_line (table : VoidTable) (s : Shorthand) (h : s.Plain table) :
    Tag.read table s.line = ⟨s.tag table, []⟩ := by
  have hid : "id".toList ∉ Attributes.keys ⟨s.attributes⟩ := by
    intro hmem
    obtain ⟨e, he, hkey⟩ := List.mem_map.mp hmem
    exact (h.key e he).2.1 hkey
  have hclass : "class".toList ∉ Attributes.keys ⟨s.attributes⟩ := by
    intro hmem
    obtain ⟨e, he, hkey⟩ := List.mem_map.mp hmem
    exact (h.key e he).2.2.1 hkey
  have hvoid : (if table.contains s.name = true then none else s.content) = s.content := by
    split
    · rename_i hcontains
      exact (h.void hcontains).symm
    · rfl
  have hdropped : (if table.contains s.name = true
      then s.content.toList.map Tag.Issue.contentOnVoid else []) = [] := by
    split
    · rename_i hcontains
      rw [h.void hcontains]
      rfl
    · rfl
  -- The passes in their order.
  unfold Tag.read
  dsimp only
  rw [(trimmed_line h).trim_eq, splitName_line h]
  dsimp only
  rw [find_rest h]
  dsimp only [Tag.aroundBlock, Tag.blockAttributes, Tag.blockRejected]
  rw [selectors_marks h, ofBlock_inner h, rejected_inner h]
  dsimp only
  rw [contentOf_tail h, Attributes.get?_of_notMem hid, Attributes.get?_of_notMem hclass,
    Attributes.erase_of_notMem hid, Attributes.erase_of_notMem hclass, hvoid, hdropped,
    Option.or_none, Option.map_none, Option.getD_none, List.append_nil]
  rfl

/-- Parts with all that a tag line can be mistaken at: braces, an apostrophe, a colon and marks in
quotes, a blank in a key, an empty value, and in the content a brace, a second identifier mark
and a dot before nothing. -/
def knotted : Shorthand where
  name := "p".toList
  id := some "a_1".toList
  classes := ["b".toList, "c-2".toList]
  attributes := [("x\x7by".toList, "\x7d: 'z #q.r".toList), (" k".toList, [])]
  content := some "\x7bit's\x7d a#b = 1.".toList

theorem read_line_knotted :
    knotted.Plain .html ∧
    knotted.line = ("%p#a_1.b.c-2\x7b\"x\x7by\": \"\x7d: 'z #q.r\", \" k\": \"\"\x7d " ++
      "\x7bit's\x7d a#b = 1.").toList ∧
    Tag.read .html knotted.line = ⟨knotted.tag .html, []⟩ := by
  have hplain : knotted.Plain .html := by
    constructor
    · exact ⟨by decide, List.all_eq_true.mp (by decide)⟩
    · rintro _ ⟨⟩
      exact ⟨by decide, List.all_eq_true.mp (by decide)⟩
    · refine List.forall_mem_cons.mpr ⟨?_, List.forall_mem_singleton.mpr ?_⟩
      · exact ⟨by decide, List.all_eq_true.mp (by decide)⟩
      · exact ⟨by decide, List.all_eq_true.mp (by decide)⟩
    · decide
    · exact List.forall_mem_cons.mpr ⟨by decide, List.forall_mem_singleton.mpr (by decide)⟩
    · exact List.forall_mem_cons.mpr ⟨by decide, List.forall_mem_singleton.mpr (by decide)⟩
    · rintro _ ⟨⟩
      exact ⟨by decide, by decide, by decide, by decide, fun hid => (nomatch hid)⟩
    · exact fun hvoid => absurd hvoid (by decide)
  exact ⟨hplain, by decide, read_line .html knotted hplain⟩

end Shorthand

end Offside
