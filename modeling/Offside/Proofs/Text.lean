import Mathlib
import Offside.Line

/-!
# Laws of texts

The facts about trimming, lines and pieces that the laws of documents rest on. Three of them
carry most of the weight. A text is its own trim exactly when neither of its ends is blank
(`Text.trim_eq_self_iff`), so trimming twice is trimming once. Lines that hold no line feed can
be put together and cut apart again (`Text.lines_unlines`). And nothing that is cut out of a text
has a character that the text has not (`Text.trim_sublist` and its companions), which is why a
character that a source avoids is avoided by all that is read from it.
-/

namespace Offside

theorem isBlank_of_printable {c : Char} (hlow : 0x20 < c.toNat) (hhigh : c.toNat < 0x7F) :
    isBlank c = false := by
  simp only [isBlank, blankRanges, List.any_cons, List.any_nil, Bool.or_false,
    Bool.or_eq_false_iff, Bool.and_eq_false_iff, decide_eq_false_iff_not]
  omega

namespace Text

/-! ### Trimming -/

theorem forall_head?_cons {p : Char → Prop} {c : Char} (h : p c) (rest : Text) :
    ∀ d ∈ (c :: rest).head?, p d := by
  intro d hd
  obtain rfl : c = d := Option.some.inj hd
  exact h

/-- Neither end of a text is blank. -/
structure Trimmed (t : Text) : Prop where
  head : ∀ c ∈ t.head?, isBlank c = false
  last : ∀ c ∈ t.getLast?, isBlank c = false

theorem trimStart_sublist (t : Text) : (trimStart t).Sublist t :=
  List.dropWhile_sublist isBlank

theorem isPrefix_trimEnd (t : Text) : trimEnd t <+: t :=
  List.rdropWhile_prefix isBlank t

theorem trim_sublist (t : Text) : (trim t).Sublist t :=
  (isPrefix_trimEnd _).sublist.trans (trimStart_sublist t)

theorem trim_subset (t : Text) : trim t ⊆ t :=
  (trim_sublist t).subset

theorem trimStart_eq_self {t : Text} (h : ∀ c ∈ t.head?, isBlank c = false) : trimStart t = t := by
  cases t with
  | nil => rfl
  | cons c rest =>
    have hc : ¬ isBlank c = true := by simp [h c rfl]
    exact List.dropWhile_cons_of_neg hc

theorem trimEnd_eq_self {t : Text} (h : ∀ c ∈ t.getLast?, isBlank c = false) : trimEnd t = t := by
  refine List.rdropWhile_eq_self_iff.mpr fun hne => ?_
  have hlast := h (t.getLast hne) (List.getLast?_eq_some_getLast hne)
  simp [hlast]

/-- What trimming leaves is blank at neither end. -/
theorem trimmed_trim (t : Text) : Trimmed (trim t) where
  head c hc := by
    -- Trimming the end keeps the first character, if it keeps any.
    obtain ⟨rest, hrest⟩ := isPrefix_trimEnd (trimStart t)
    have hhead : (t.dropWhile isBlank).head? = some c := by
      change (trimStart t).head? = some c
      rw [← hrest]
      change (trim t ++ rest).head? = some c
      rw [List.head?_append, hc]
      rfl
    have hnot := List.head?_dropWhile_not isBlank t
    rw [hhead] at hnot
    exact hnot
  last c hc := by
    have hne : trim t ≠ [] := by
      intro hnil
      rw [hnil] at hc
      exact nomatch hc
    have hnot := List.rdropWhile_last_not isBlank (trimStart t) hne
    have hlast : (trim t).getLast hne = c :=
      Option.some.inj ((List.getLast?_eq_some_getLast hne).symm.trans hc)
    change ¬ isBlank ((trim t).getLast hne) = true at hnot
    rw [hlast] at hnot
    simpa using hnot

/-- A text is its own trim exactly when neither end is blank. -/
theorem trim_eq_self_iff (t : Text) : trim t = t ↔ Trimmed t := by
  constructor
  · intro h
    rw [← h]
    exact trimmed_trim t
  · intro h
    rw [trim, trimStart_eq_self h.head, trimEnd_eq_self h.last]

theorem Trimmed.trim_eq {t : Text} (h : Trimmed t) : trim t = t :=
  (trim_eq_self_iff t).mpr h

@[simp] theorem trim_trim (t : Text) : trim (trim t) = trim t :=
  (trimmed_trim t).trim_eq

/-- Blanks in front are nothing to a trim. -/
theorem trim_append_of_blank {front : Text} (h : ∀ c ∈ front, isBlank c = true) (t : Text) :
    trim (front ++ t) = trim t := by
  have hstart : trimStart (front ++ t) = trimStart t := List.dropWhile_append_of_pos h
  rw [trim, hstart, trim]

theorem trim_cons_of_blank {c : Char} (h : isBlank c = true) (t : Text) :
    trim (c :: t) = trim t :=
  trim_append_of_blank (List.forall_mem_singleton.mpr h) t

/-- A text between two characters that are not blank is trimmed. -/
theorem trimmed_of_ends {first last : Char} {t : Text} (hfirst : isBlank first = false)
    (hlast : isBlank last = false) : Trimmed (first :: (t ++ [last])) where
  head := forall_head?_cons hfirst _
  last c hc := by
    rw [← List.cons_append, List.getLast?_append] at hc
    obtain rfl : last = c := Option.some.inj hc
    exact hlast

/-! ### Pieces and lines -/

/-- A run ends where the next character cannot continue it. -/
theorem takeWhile_append_of_stop {p : Char → Bool} {b : Text} (h : ∀ c ∈ b.head?, p c = false)
    (a : Text) : (a ++ b).takeWhile p = a.takeWhile p := by
  induction a with
  | nil =>
    -- The whole of the first text is in the run, so the second decides where it ends.
    cases b with
    | nil => rfl
    | cons c rest =>
      have hc : ¬ p c = true := by simp [h c rfl]
      rw [List.nil_append, List.takeWhile_cons_of_neg hc, List.takeWhile_nil]
  | cons c a ih =>
    by_cases hc : p c = true
    · rw [List.cons_append, List.takeWhile_cons_of_pos hc, List.takeWhile_cons_of_pos hc, ih]
    · rw [List.cons_append, List.takeWhile_cons_of_neg hc, List.takeWhile_cons_of_neg hc]

/-- A run is cut off whole where the next character cannot continue it. -/
theorem takeWhile_run {p : Char → Bool} {a b : Text} (ha : ∀ c ∈ a, p c = true)
    (hb : ∀ c ∈ b.head?, p c = false) : (a ++ b).takeWhile p = a := by
  rw [takeWhile_append_of_stop hb]
  exact List.takeWhile_eq_self_iff.mpr ha

theorem dropWhile_run {p : Char → Bool} {a b : Text} (ha : ∀ c ∈ a, p c = true)
    (hb : ∀ c ∈ b.head?, p c = false) : (a ++ b).dropWhile p = b := by
  -- What is dropped is what is not taken.
  have hsplit : (a ++ b).takeWhile p ++ (a ++ b).dropWhile p = a ++ b :=
    List.takeWhile_append_dropWhile
  rw [takeWhile_run ha hb] at hsplit
  exact List.append_cancel_left hsplit

/-- A text is cut at the first separator, so none may stand before it. -/
theorem cutAt_append {sep : Char} {before : Text} (h : sep ∉ before) (after : Text) :
    cutAt sep (before ++ sep :: after) = some (before, after) := by
  have hrun : ∀ c ∈ before, (c != sep) = true := by
    intro c hc
    simpa using fun hsep : c = sep => h (hsep ▸ hc)
  have hstop : ∀ c ∈ (sep :: after).head?, (c != sep) = false :=
    forall_head?_cons (by simp) after
  unfold cutAt
  rw [dropWhile_run hrun hstop, takeWhile_run hrun hstop]

/-- A piece of a text holds none of the characters at which it was cut, and none that the text has
not. -/
theorem of_mem_splitOnP {p : Char → Bool} {t piece : Text} (h : piece ∈ t.splitOnP p) :
    (∀ c ∈ piece, p c = false) ∧ piece ⊆ t := by
  induction t generalizing piece with
  | nil =>
    obtain rfl : piece = [] := by simpa using h
    exact ⟨fun c hc => absurd hc List.not_mem_nil, List.nil_subset _⟩
  | cons c rest ih =>
    rw [List.splitOnP_cons_eq_if_modifyHead] at h
    by_cases hc : p c = true
    · rw [if_pos hc] at h
      rcases List.mem_cons.mp h with rfl | h
      · exact ⟨fun c hc => absurd hc List.not_mem_nil, List.nil_subset _⟩
      · exact ⟨(ih h).1, List.subset_cons_of_subset c (ih h).2⟩
    · rw [if_neg hc] at h
      -- The character goes to the front of the first piece; the others are those of the rest.
      cases hsplit : rest.splitOnP p with
      | nil => exact absurd hsplit (List.splitOnP_ne_nil _ _)
      | cons first others =>
        rw [hsplit, List.modifyHead_cons] at h
        rcases List.mem_cons.mp h with rfl | h
        · have hfirst := ih (hsplit ▸ List.mem_cons_self)
          refine ⟨?_, List.cons_subset_cons c hfirst.2⟩
          rintro d (_ | ⟨_, hd⟩)
          · simpa using hc
          · exact hfirst.1 d hd
        · have hother := ih (hsplit ▸ List.mem_cons_of_mem first h)
          exact ⟨hother.1, List.subset_cons_of_subset c hother.2⟩

theorem of_mem_splitOn {sep : Char} {t piece : Text} (h : piece ∈ List.splitOn sep t) :
    sep ∉ piece ∧ piece ⊆ t := by
  rw [List.splitOn_eq_splitOnP] at h
  obtain ⟨hfree, hsub⟩ := of_mem_splitOnP h
  exact ⟨fun hsep => by simpa using hfree sep hsep, hsub⟩

theorem subset_of_mem_words {t word : Text} (h : word ∈ words t) : word ⊆ t :=
  (of_mem_splitOnP (List.mem_filter.mp h).1).2

/-- Lines put together are cut apart again, if there are any and none holds a line feed. -/
theorem lines_unlines {ls : List Text} (hne : ls ≠ []) (h : ∀ l ∈ ls, '\n' ∉ l) :
    lines (unlines ls) = ls :=
  List.splitOn_intercalate '\n' h hne

theorem unifyNewlines_sublist (t : Text) : (unifyNewlines t).Sublist t := by
  unfold unifyNewlines
  induction t with
  | nil => exact List.Sublist.slnil
  | cons c rest ih =>
    rw [List.foldr_cons, unifyStep]
    -- A carriage return before a line feed is left out; everything else stays.
    split
    · exact ih.cons c
    · exact ih.cons_cons c

/-- Over a line the newlines are unified without a change, whatever follows it, if the line does
not end in a carriage return of its own. -/
theorem foldr_unifyStep {line : Text} (hfeed : '\n' ∉ line)
    (hreturn : ∀ c ∈ line.getLast?, c ≠ '\r') (state : Bool × Text) :
    line.foldr unifyStep state = (line.isEmpty && state.1, line ++ state.2) := by
  induction line with
  | nil => rfl
  | cons c line ih =>
    have hc : c ≠ '\n' := fun hc => hfeed (hc ▸ List.mem_cons_self)
    -- Only the last character of the line can have a line feed next to it.
    have hstep : ∀ flag rest, ¬ (c = '\r' ∧ flag = true) →
        unifyStep c (flag, rest) = (false, c :: rest) := by
      intro flag rest hno
      rw [unifyStep, if_neg hno, decide_eq_false hc]
    rw [List.foldr_cons]
    cases line with
    | nil =>
      refine hstep state.1 state.2 fun hno => ?_
      exact hreturn c rfl hno.1
    | cons d line =>
      rw [ih (fun hmem => hfeed (List.mem_cons_of_mem _ hmem)) hreturn]
      exact hstep false _ fun hno => Bool.false_ne_true hno.2

/-- Lines that do not end in a carriage return are put together with plain line feeds. -/
theorem unifyNewlines_unlines {ls : List Text}
    (h : ∀ l ∈ ls, '\n' ∉ l ∧ ∀ c ∈ l.getLast?, c ≠ '\r') :
    unifyNewlines (unlines ls) = unlines ls := by
  unfold unifyNewlines unlines
  induction ls with
  | nil => rfl
  | cons first rest ih =>
    obtain ⟨hfeed, hreturn⟩ := h first List.mem_cons_self
    cases rest with
    | nil => rw [List.intercalate_singleton, foldr_unifyStep hfeed hreturn, List.append_nil]
    | cons second rest =>
      have hnext : ∀ state, unifyStep '\n' state = (true, '\n' :: state.2) := fun _ => rfl
      rw [List.intercalate_cons_cons, List.append_assoc, List.foldr_append,
        foldr_unifyStep hfeed hreturn, List.singleton_append, List.foldr_cons, hnext,
        ih fun l hl => h l (List.mem_cons_of_mem _ hl)]

end Text

/-! ### Lines of a source -/

namespace Line

/-- A line of a source holds no line feed, and no character that the source has not. -/
theorem of_mem_ofSource {source : Text} {line : Line} (h : line ∈ ofSource source) :
    '\n' ∉ line.raw ∧ line.raw ⊆ source := by
  obtain ⟨⟨raw, number⟩, hraw, rfl⟩ := List.mem_map.mp h
  have hmem : raw ∈ Text.lines (Text.unifyNewlines source) :=
    List.fst_mem_of_mem_zipIdx hraw
  obtain ⟨hfeed, hsub⟩ := Text.of_mem_splitOn hmem
  exact ⟨hfeed, List.Subset.trans hsub (Text.unifyNewlines_sublist source).subset⟩

theorem trimmed_content (line : Line) : Text.Trimmed line.content :=
  Text.trimmed_trim line.raw

theorem content_subset (line : Line) : line.content ⊆ line.raw :=
  Text.trim_subset line.raw

end Line

end Offside
