import Offside.Markup.Highlight
import Offside.Proofs.Offsets

/-!
# Highlighting by byte offsets

Markup is cut into pieces on the list of its characters, where a cut can go wrong in one place only:
a key would have to start within a blank of several bytes. A highlighter that works on the bytes of
the markup has more to fear (`Text.Fault`). It looks for the next bracket, blank, `="` or quote,
adds one, two or three to the offset that it finds, or takes the end of the text if there is nothing
to find, and cuts there. Each such offset must lie within the text and between two characters, and
the two offsets of a part must be in order. And it goes round in two loops, one over the tags and
one over the attributes of a tag, each of which would never end if a round left as much as it found.

`Highlight.highlightByOffset` is that highlighter, with both faults as outcomes. **It fails exactly
where highlighting is refused, and otherwise gives the same** (`Highlight.highlightByOffset_eq`).
For each cut there is one lemma, which says that the offset is the length of what stands before it
(`Highlight.cutValue_eq`, `Highlight.cutTag_eq`, `Highlight.tagByOffset_eq`); what was added to it
is the length of the brackets and quotes, which take one byte each. The blank before a key is the
one character of which this is not known (`Highlight.cutKey_eq`). Every round consumes at least the
`=` or the bracket that it began with, so the loops end.
-/

namespace Offside

/-! ### Offsets of characters -/

namespace Text

/-- The offset of the first character of a kind. -/
def offsetOf? (p : Char → Bool) : Text → Option Nat
  | [] => none
  | c :: t => if p c then some 0 else (offsetOf? p t).map (c.utf8Size + ·)

/-- The offset of the last character of a kind. -/
def lastOffsetOf? (p : Char → Bool) : Text → Option Nat
  | [] => none
  | c :: t =>
    match lastOffsetOf? p t with
    | some offset => some (c.utf8Size + offset)
    | none => if p c then some 0 else none

/-- The offset of the first place where a text has another as a part. -/
def offsetOfPart? (part : Text) : Text → Option Nat
  | [] => if part.isEmpty then some 0 else none
  | c :: t =>
    if part.isPrefixOf (c :: t) then some 0 else (offsetOfPart? part t).map (c.utf8Size + ·)

variable {p : Char → Bool} {a b : Text} {c : Char}

theorem offsetOf?_of_notMem {t : Text} (h : c ∉ t) : offsetOf? (· = c) t = none := by
  induction t with
  | nil => rfl
  | cons d t ih =>
    have hd : ¬ decide (d = c) = true := by
      simpa using fun heq : d = c => h (heq ▸ List.mem_cons_self)
    rw [offsetOf?, if_neg hd, ih fun hmem => h (List.mem_cons_of_mem d hmem)]
    rfl

/-- The offset of the first occurrence of a character is the length of what stands before it. -/
theorem offsetOf?_append (h : c ∉ a) (b : Text) :
    offsetOf? (· = c) (a ++ c :: b) = some (byteLength a) := by
  induction a with
  | nil =>
    rw [List.nil_append, offsetOf?, if_pos (by simp)]
    rfl
  | cons d a ih =>
    have hd : ¬ decide (d = c) = true := by
      simpa using fun heq : d = c => h (heq ▸ List.mem_cons_self)
    rw [List.cons_append, offsetOf?, if_neg hd, ih fun hmem => h (List.mem_cons_of_mem d hmem),
      byteLength_cons]
    rfl

/-- Up to the first character of a kind, or to the end. -/
theorem getD_offsetOf? (p : Char → Bool) (t : Text) :
    (offsetOf? p t).getD (byteLength t) = byteLength (t.takeWhile fun c => !p c) := by
  induction t with
  | nil => rfl
  | cons c t ih =>
    by_cases hc : p c = true
    · rw [offsetOf?, if_pos hc, List.takeWhile_cons_of_neg (by simp [hc])]
      rfl
    · rw [offsetOf?, if_neg hc, List.takeWhile_cons_of_pos (by simp [hc]), byteLength_cons,
        byteLength_cons, ← ih]
      cases offsetOf? p t with
      | none => rfl
      | some offset => rfl

theorem lastOffsetOf?_of_forall {t : Text} (h : ∀ c ∈ t, p c = false) :
    lastOffsetOf? p t = none := by
  induction t with
  | nil => rfl
  | cons c t ih =>
    have hc : ¬ p c = true := by simp [h c List.mem_cons_self]
    rw [lastOffsetOf?, ih fun d hd => h d (List.mem_cons_of_mem c hd)]
    exact if_neg hc

/-- The last character of a kind comes before others, and its offset is the length of what stands
before it. -/
theorem lastOffsetOf?_append (hc : p c = true) (hb : ∀ c ∈ b, p c = false) (a : Text) :
    lastOffsetOf? p (a ++ c :: b) = some (byteLength a) := by
  induction a with
  | nil =>
    rw [List.nil_append, lastOffsetOf?, lastOffsetOf?_of_forall hb]
    exact if_pos hc
  | cons d a ih => rw [List.cons_append, lastOffsetOf?, ih, byteLength_cons]

/-- **Within a character there is no place to cut.** -/
theorem cutAtByte_within {n : Nat} (hpos : 0 < n) (hlt : n < c.utf8Size) (a b : Text) :
    cutAtByte (a ++ c :: b) (byteLength a + n) = .error .outOfRange := by
  induction a with
  | nil =>
    obtain ⟨m, rfl⟩ : ∃ m, n = m + 1 := Nat.exists_eq_succ_of_ne_zero (Nat.ne_of_gt hpos)
    rw [List.nil_append, byteLength_nil, Nat.zero_add, cutAtByte, if_neg (Nat.not_le_of_lt hlt)]
  | cons d a ih =>
    -- The first character fits in front of the offset, so the cut is one of the rest.
    obtain ⟨m, hm⟩ : ∃ m, d.utf8Size + byteLength a + n = m + 1 :=
      Nat.exists_eq_succ_of_ne_zero (by omega)
    have hle : d.utf8Size ≤ m + 1 := by omega
    have hrest : m + 1 - d.utf8Size = byteLength a + n := by omega
    rw [List.cons_append, byteLength_cons, hm, cutAtByte, if_pos hle, hrest, ih]
    rfl

theorem slice_within {t : Text} (ht : t = a ++ c :: b) (hwide : c.utf8Size ≠ 1) :
    slice t 0 (byteLength a + 1) = .error .outOfRange := by
  have hlt : 1 < c.utf8Size := by
    have := c.utf8Size_pos
    omega
  rw [slice, if_pos (Nat.zero_le _), ht, cutAtByte_within Nat.one_pos hlt]
  rfl

theorem cutAt_cases (sep : Char) (t : Text) :
    (cutAt sep t = none ∧ sep ∉ t) ∨
      ∃ before after, cutAt sep t = some (before, after) ∧ sep ∉ before ∧
        t = before ++ sep :: after := by
  by_cases hmem : sep ∈ t
  · obtain ⟨before, after, rfl, hbefore⟩ := List.eq_append_cons_of_mem hmem
    exact Or.inr ⟨before, after, cutAt_append hbefore after, hbefore, rfl⟩
  · refine Or.inl ⟨?_, hmem⟩
    have hdrop : t.dropWhile (· != sep) = [] := by
      refine List.dropWhile_eq_nil_iff.mpr fun c hc => ?_
      simpa using fun hsep : c = sep => hmem (hsep ▸ hc)
    rw [cutAt, hdrop]

end Text

namespace Highlight

/-! ### The cuts on characters -/

theorem eq_of_cutAssignment {t before after : Text} (h : cutAssignment t = some (before, after)) :
    t = before ++ '=' :: '"' :: after := by
  fun_induction cutAssignment t generalizing before with
  | case1 => cases h
  | case2 rest =>
    obtain ⟨rfl, rfl⟩ := Prod.mk.inj (Option.some.inj h)
    rfl
  | case3 c rest _ ih =>
    obtain ⟨parts, hparts, heq⟩ := Option.map_eq_some_iff.mp h
    obtain ⟨rfl, rfl⟩ := Prod.mk.inj heq
    rw [ih hparts, List.cons_append]

theorem append_quoted (t : Text) : (quoted t).1 ++ (quoted t).2 = '"' :: t := by
  rcases Text.cutAt_cases '"' t with ⟨hcut, -⟩ | ⟨value, after, hcut, -, rfl⟩
  · simp [quoted, hcut]
  · simp [quoted, hcut]

theorem append_tagText (t : Text) : (tagText t).1 ++ (tagText t).2 = t := by
  rcases Text.cutAt_cases '>' t with ⟨hcut, -⟩ | ⟨tag, after, hcut, -, rfl⟩
  · simp [tagText, hcut]
  · simp [tagText, hcut]

/-- **What cutting after the last blank can do.** Without a blank all of the text is the key. Else
the blank must be of one byte. -/
theorem splitKey_cases (before : Text) :
    ((∀ c ∈ before, isBlank c = false) ∧ splitKey before = .ok ([], before)) ∨
      ∃ lead blank key, before = lead ++ blank :: key ∧ isBlank blank = true ∧
        (∀ c ∈ key, isBlank c = false) ∧
          splitKey before =
            if blank.utf8Size = 1 then .ok (lead ++ [blank], key) else .error ⟨blank⟩ := by
  have hsplit := Text.dropTail_append_takeTail (fun c => !isBlank c) before
  have hkey : ∀ c ∈ Text.takeTail (fun c => !isBlank c) before, isBlank c = false := by
    intro c hc
    simpa using List.mem_takeWhile_imp (List.mem_reverse.mp hc)
  unfold splitKey
  dsimp only
  generalize Text.takeTail (fun c => !isBlank c) before = key at hsplit hkey
  cases hlast : (Text.dropTail (fun c => !isBlank c) before).getLast? with
  | none =>
    -- Nothing is left before the key.
    have hnil := List.getLast?_eq_none_iff.mp hlast
    rw [hnil, List.nil_append] at hsplit
    subst hsplit
    exact Or.inl ⟨hkey, by rw [hnil]⟩
  | some blank =>
    obtain ⟨lead, hlead⟩ := List.getLast?_eq_some_iff.mp hlast
    have hblank : isBlank blank = true := by
      have hnot := List.head?_dropWhile_not (fun c => !isBlank c) before.reverse
      have hhead : (before.reverse.dropWhile fun c => !isBlank c).head? = some blank := by
        rw [← List.getLast?_reverse]
        exact hlast
      rw [hhead] at hnot
      simpa using hnot
    refine Or.inr ⟨lead, blank, key, ?_, hblank, hkey, by rw [hlead]⟩
    rw [← hsplit, hlead, List.append_assoc, List.singleton_append]

/-! ### The loops on characters -/

section Rounds

variable {t before after : Text}

@[simp] theorem attributePieces_nil : attributePieces [] = .ok [] := by
  rw [attributePieces, if_pos rfl]

theorem attributePieces_of_none (hne : t ≠ []) (h : cutAssignment t = none) :
    attributePieces t = .ok [⟨.name, t⟩] := by
  rw [attributePieces, if_neg hne]
  split
  · rfl
  · rename_i hsome
    rw [h] at hsome
    cases hsome

/-- One round: a key, its value, and whatever comes after it. -/
theorem attributePieces_of_some (h : cutAssignment t = some (before, after)) :
    attributePieces t = (do
      let key ← splitKey before
      let rest ← attributePieces (quoted after).2
      return [⟨.plain, key.1⟩, ⟨.key, key.2⟩, ⟨.plain, ['=']⟩, ⟨.value, (quoted after).1⟩] ++
        rest) := by
  have hne : t ≠ [] := by
    rintro rfl
    cases h
  rw [attributePieces, if_neg hne]
  split
  · rename_i hnone
    rw [h] at hnone
    cases hnone
  · rename_i hsome
    obtain ⟨rfl, rfl⟩ := Prod.mk.inj (Option.some.inj (h.symm.trans hsome))
    rfl

theorem pieces_of_none (h : Text.cutAt '<' t = none) : pieces t = .ok [⟨.plain, t⟩] := by
  rw [pieces]
  split
  · rfl
  · rename_i hsome
    rw [h] at hsome
    cases hsome

/-- One round: the text before a tag, the tag, and whatever comes after it. -/
theorem pieces_of_some (h : Text.cutAt '<' t = some (before, after)) :
    pieces t = (do
      let tag ← tagPieces (tagText after).1
      let rest ← pieces (tagText after).2
      return ⟨.plain, before⟩ :: tag ++ rest) := by
  rw [pieces]
  split
  · rename_i hnone
    rw [h] at hnone
    cases hnone
  · rename_i hsome
    obtain ⟨rfl, rfl⟩ := Prod.mk.inj (Option.some.inj (h.symm.trans hsome))
    rfl

end Rounds

/-! ### The highlighter -/

open Text (Fault slice slice_eq_ok slice_start slice_end slice_within)

/-- Cuts a text one byte after the start of its last blank. -/
def cutKey (before : Text) : Except Fault (Text × Text) := do
  let start := ((Text.lastOffsetOf? isBlank before).map (· + 1)).getD 0
  let lead ← slice before 0 start
  let key ← slice before start (Text.byteLength before)
  return (lead, key)

/-- Cuts a text that starts with `="` after the next quote. -/
def cutValue (t : Text) : Except Fault (Text × Text) := do
  let inside ← slice t 2 (Text.byteLength t)
  let close := ((Text.offsetOf? (· = '"') inside).map (· + 3)).getD (Text.byteLength t)
  let value ← slice t 1 close
  let after ← slice t close (Text.byteLength t)
  return (value, after)

/-- The pieces of a tag after its name. -/
def attributesByOffset (t : Text) : Except Fault (List Piece) :=
  if t = [] then .ok []
  else
    match Text.offsetOfPart? ['=', '"'] t with
    | none => .ok [⟨.name, t⟩]
    | some start => do
      let before ← slice t 0 start
      let assigned ← slice t start (Text.byteLength t)
      let value ← cutValue assigned
      let key ← cutKey before
      if _h : value.2.length < t.length then
        let rest ← attributesByOffset value.2
        return [⟨.plain, key.1⟩, ⟨.key, key.2⟩, ⟨.plain, ['=']⟩, ⟨.value, value.1⟩] ++ rest
      else .error .idle
termination_by t.length

/-- The pieces of a tag. -/
def tagByOffset (tag : Text) : Except Fault (List Piece) := do
  let inside ← slice tag 1 (Text.byteLength tag)
  let stop := ((Text.offsetOf? endsName inside).map (· + 1)).getD (Text.byteLength tag)
  let name ← slice tag 0 stop
  let after ← slice tag stop (Text.byteLength tag)
  let rest ← attributesByOffset after
  return ⟨.name, name⟩ :: rest

/-- Cuts a text that starts with an opening bracket after the next closing one. -/
def cutTag (t : Text) : Except Fault (Text × Text) := do
  let stop := ((Text.offsetOf? (· = '>') t).map (· + 1)).getD (Text.byteLength t)
  let tag ← slice t 0 stop
  let after ← slice t stop (Text.byteLength t)
  return (tag, after)

/-- The pieces of markup. -/
def piecesByOffset (markup : Text) : Except Fault (List Piece) :=
  match Text.offsetOf? (· = '<') markup with
  | none => .ok [⟨.plain, markup⟩]
  | some start => do
    let before ← slice markup 0 start
    let opened ← slice markup start (Text.byteLength markup)
    let parts ← cutTag opened
    let tag ← tagByOffset parts.1
    if _h : parts.2.length < markup.length then
      let rest ← piecesByOffset parts.2
      return ⟨.plain, before⟩ :: tag ++ rest
    else .error .idle
termination_by markup.length

/-- Markup in colour, cut by byte offsets. -/
def highlightByOffset (coloured : Bool) (markup : Text) : Except Fault Text := do
  let pieces ← piecesByOffset markup
  return pieces.flatMap (Piece.paint coloured)

/-! ### Its cuts -/

/-- **A key is cut off exactly where the blank before it takes one byte.** -/
theorem cutKey_eq (before : Text) :
    cutKey before = (splitKey before).mapError fun _ => .outOfRange := by
  rcases splitKey_cases before with ⟨hfree, hsplit⟩ | ⟨lead, blank, key, rfl, hblank, hkey, hsplit⟩
  · have hlead : slice before 0 0 = .ok [] := slice_start (a := []) rfl rfl
    have hkey : slice before 0 (Text.byteLength before) = .ok before :=
      slice_end (a := []) rfl rfl
    rw [hsplit, cutKey, Text.lastOffsetOf?_of_forall hfree, Option.map_none, Option.getD_none,
      hlead, ok_bind, hkey]
    rfl
  · rw [hsplit, cutKey, Text.lastOffsetOf?_append hblank hkey, Option.map_some, Option.getD_some]
    by_cases hsize : blank.utf8Size = 1
    · have hparts : lead ++ blank :: key = (lead ++ [blank]) ++ key := by simp
      have hoffset : Text.byteLength lead + 1 = Text.byteLength (lead ++ [blank]) := by
        simp [hsize]
      rw [if_pos hsize, slice_start hparts hoffset, ok_bind, slice_end hparts hoffset]
      rfl
    · rw [if_neg hsize, slice_within rfl hsize]
      rfl

/-- A value is cut off from its opening quote to its closing one, or to the end. -/
theorem cutValue_eq (t : Text) : cutValue ('=' :: '"' :: t) = .ok (quoted t) := by
  have hequals : '='.utf8Size = 1 := rfl
  have hquote : '"'.utf8Size = 1 := rfl
  have hinside : slice ('=' :: '"' :: t) 2 (Text.byteLength ('=' :: '"' :: t)) = .ok t :=
    slice_end (a := ['=', '"']) rfl rfl
  -- Whether there is a closing quote or not, the offset is one more than the length of the value.
  have hclose : ((Text.offsetOf? (· = '"') t).map (· + 3)).getD
      (Text.byteLength ('=' :: '"' :: t)) = 1 + Text.byteLength (quoted t).1 := by
    rcases Text.cutAt_cases '"' t with ⟨hcut, hfree⟩ | ⟨value, after, hcut, hvalue, rfl⟩
    · rw [Text.offsetOf?_of_notMem hfree]
      simp [quoted, hcut, hequals]
    · rw [Text.offsetOf?_append hvalue]
      simp [quoted, hcut, hquote]
      omega
  have hparts : '=' :: '"' :: t = ['='] ++ ((quoted t).1 ++ (quoted t).2) := by
    rw [append_quoted]
    rfl
  have hvalue : slice ('=' :: '"' :: t) 1 (1 + Text.byteLength (quoted t).1) =
      .ok (quoted t).1 :=
    slice_eq_ok hparts rfl rfl
  have hafter : slice ('=' :: '"' :: t) (1 + Text.byteLength (quoted t).1)
      (Text.byteLength ('=' :: '"' :: t)) = .ok (quoted t).2 :=
    slice_end (a := '=' :: (quoted t).1) hparts (by simp [hequals])
  rw [cutValue, hinside, ok_bind, hclose]
  dsimp only
  rw [hvalue, ok_bind, hafter]
  rfl

/-- A tag is cut off after its closing bracket, or at the end. -/
theorem cutTag_eq (t : Text) :
    cutTag ('<' :: t) = .ok ('<' :: (tagText t).1, (tagText t).2) := by
  have hopen : '<'.utf8Size = 1 := rfl
  have hclose : '>'.utf8Size = 1 := rfl
  have hstop : ((Text.offsetOf? (· = '>') ('<' :: t)).map (· + 1)).getD
      (Text.byteLength ('<' :: t)) = Text.byteLength ('<' :: (tagText t).1) := by
    rcases Text.cutAt_cases '>' t with ⟨hcut, hfree⟩ | ⟨tag, after, hcut, htag, rfl⟩
    · have hfree' : '>' ∉ '<' :: t := by simpa using hfree
      rw [Text.offsetOf?_of_notMem hfree']
      simp [tagText, hcut]
    · have htag' : '>' ∉ '<' :: tag := by simpa using htag
      rw [← List.cons_append, Text.offsetOf?_append htag']
      simp [tagText, hcut, hclose]
      omega
  have hparts : '<' :: t = ('<' :: (tagText t).1) ++ (tagText t).2 := by
    rw [List.cons_append, append_tagText]
  rw [cutTag, hstop, slice_start hparts rfl, ok_bind, slice_end hparts rfl]
  rfl

/-! ### Its loops -/

/-- A failure under another name is still one, wherever in a computation it comes about. -/
theorem mapError_bind {ε ε' α β : Type} (f : ε → ε') (x : Except ε α) (k : α → Except ε β) :
    (x >>= k).mapError f = (x.mapError f >>= fun a => (k a).mapError f) := by
  cases x <;> rfl

theorem offsetOfPart?_eq (t : Text) :
    Text.offsetOfPart? ['=', '"'] t =
      (cutAssignment t).map fun parts => Text.byteLength parts.1 := by
  fun_induction cutAssignment t with
  | case1 => rfl
  | case2 after => rfl
  | case3 c rest hnot ih =>
    have hprefix : ¬ ['=', '"'].isPrefixOf (c :: rest) = true := by
      rw [List.isPrefixOf_iff_prefix]
      rintro ⟨after, hafter⟩
      obtain ⟨rfl, rfl⟩ := List.cons.inj hafter
      exact hnot after rfl rfl
    rw [Text.offsetOfPart?, if_neg hprefix, ih, Option.map_map, Option.map_map]
    congr 1
    funext parts
    exact (Text.byteLength_cons c parts.1).symm

/-- **The attributes of a tag.** A round takes the `=` at least, so that the loop ends. -/
theorem attributesByOffset_eq (t : Text) :
    attributesByOffset t = (attributePieces t).mapError fun _ => .outOfRange := by
  induction t using attributePieces.induct with
  | case1 =>
    rw [attributesByOffset, if_pos rfl, attributePieces_nil]
    rfl
  | case2 t hne hcut =>
    rw [attributesByOffset, if_neg hne, offsetOfPart?_eq, hcut, attributePieces_of_none hne hcut]
    rfl
  | case3 t hne before after hcut ih =>
    have ht := eq_of_cutAssignment hcut
    have hround : (quoted after).2.length < t.length :=
      Nat.lt_of_le_of_lt (length_quoted_le after) (length_cutAssignment hcut)
    rw [attributesByOffset, if_neg hne, offsetOfPart?_eq, hcut, attributePieces_of_some hcut,
      mapError_bind, ← cutKey_eq]
    dsimp only [Option.map_some]
    -- All cuts but that of the key succeed, so the two sides fail or go on with it together.
    rw [slice_start ht rfl, ok_bind, slice_end ht rfl, ok_bind, cutValue_eq, ok_bind]
    congr 1
    funext key
    rw [dif_pos hround, ih, mapError_bind]
    rfl

/-- The name of a tag ends before its first blank or bracket, or with the tag. -/
theorem tagByOffset_eq (t : Text) :
    tagByOffset ('<' :: t) = (tagPieces t).mapError fun _ => .outOfRange := by
  have hopen : '<'.utf8Size = 1 := rfl
  have hinside : slice ('<' :: t) 1 (Text.byteLength ('<' :: t)) = .ok t :=
    slice_end (a := ['<']) rfl rfl
  have hstop : ((Text.offsetOf? endsName t).map (· + 1)).getD (Text.byteLength ('<' :: t)) =
      Text.byteLength ('<' :: t.takeWhile fun c => !endsName c) := by
    rw [Text.byteLength_cons, Text.byteLength_cons, hopen, ← Text.getD_offsetOf?]
    cases Text.offsetOf? endsName t with
    | none => rfl
    | some offset => exact Nat.add_comm offset 1
  have hparts : '<' :: t =
      ('<' :: t.takeWhile fun c => !endsName c) ++ t.dropWhile fun c => !endsName c := by
    rw [List.cons_append, List.takeWhile_append_dropWhile]
  rw [tagByOffset, hinside, ok_bind, hstop]
  dsimp only
  rw [slice_start hparts rfl, ok_bind, slice_end hparts rfl, ok_bind, tagPieces, mapError_bind,
    ← attributesByOffset_eq]
  rfl

/-- **The tags of markup.** A round takes the opening bracket at least, so that the loop ends. -/
theorem piecesByOffset_eq (t : Text) :
    piecesByOffset t = (pieces t).mapError fun _ => .outOfRange := by
  induction t using pieces.induct with
  | case1 t hcut =>
    have hfree : '<' ∉ t := by
      rcases Text.cutAt_cases '<' t with ⟨-, hfree⟩ | ⟨before, after, hsome, -⟩
      · exact hfree
      · rw [hcut] at hsome
        cases hsome
    rw [piecesByOffset, Text.offsetOf?_of_notMem hfree, pieces_of_none hcut]
    rfl
  | case2 t before after hcut ih =>
    have ht := Text.eq_of_cutAt hcut
    have hstart : Text.offsetOf? (· = '<') t = some (Text.byteLength before) := by
      rcases Text.cutAt_cases '<' t with ⟨hnone, -⟩ | ⟨before', after', hsome, hfree, ht'⟩
      · rw [hcut] at hnone
        cases hnone
      · obtain ⟨rfl, rfl⟩ := Prod.mk.inj (Option.some.inj (hcut.symm.trans hsome))
        rw [ht]
        exact Text.offsetOf?_append hfree after
    have hround : (tagText after).2.length < t.length := by
      have hafter := length_tagText_le after
      rw [ht, List.length_append, List.length_cons]
      omega
    rw [piecesByOffset, hstart, pieces_of_some hcut, mapError_bind, ← tagByOffset_eq]
    dsimp only
    -- The cuts of the markup succeed. What may fail is the tag, and it does so on both sides.
    rw [slice_start ht rfl, ok_bind, slice_end ht rfl, ok_bind, cutTag_eq, ok_bind]
    congr 1
    funext tag
    rw [dif_pos hround, ih, mapError_bind]
    rfl

/-- **Highlighting by offsets fails exactly where highlighting is refused,** and else the two come
to the same. -/
theorem highlightByOffset_eq (coloured : Bool) (markup : Text) :
    highlightByOffset coloured markup =
      (highlight coloured markup).mapError fun _ => .outOfRange := by
  unfold highlightByOffset highlight
  rw [piecesByOffset_eq, mapError_bind]
  rfl

end Highlight

end Offside
