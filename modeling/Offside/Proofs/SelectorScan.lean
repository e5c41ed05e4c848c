import Offside.Proofs.BlockPlacement
import Offside.Proofs.HighlightOffsets

/-!
# Two passes or one scan

The identifier and the classes are taken out of a text in two passes, one after the other. Each pass
closes the gap where something was taken, so that characters come to stand side by side that were
apart in the text, and the second pass sees a text that nobody wrote. Still, nothing is found there
that was not marked in the text, and nothing that was marked is missed
(`Selector.passes_eq_scan`): the two passes find what one scan finds that reads the text once, from
left to right, and never looks back (`Selector.scan`).

The reason is that an identifier is always taken to its end. So what follows a gap continues no
identifier, and the character before the gap, if it is a mark, is followed by no identifier
character after the gap has closed, as it was not before (`Selector.head?_idPass`,
`Selector.head?_takeAll`). This is why the order of the passes makes no difference either.

The passes can also be made on the bytes of the text, which is edited while it is searched: a loop
looks for the next mark from an offset on, takes a range of bytes out, and goes on from where the
range began (`Selector.round`). Such a loop can fail, if it cuts within a character or beyond the
end (`Text.Fault`), and it need not end, since now the offset grows and now the text shrinks.
Neither comes about (`Selector.takeFirstByOffset_eq`, `Selector.runs_takeAll`). What is behind the
offset is never read again, so that each round leaves less in front of it.
-/

namespace Offside

/-! ### Taking a range of bytes out -/

namespace Text

/-- A text without the part between two byte offsets, which have to be in order. -/
def dropRange (t : Text) (start stop : Nat) : Except Fault Text :=
  if start ≤ stop then do
    let (before, _) ← cutAtByte t start
    let (_, after) ← cutAtByte t stop
    return before ++ after
  else .error .outOfRange

theorem dropRange_append (a b c : Text) :
    dropRange (a ++ (b ++ c)) (byteLength a) (byteLength a + byteLength b) = .ok (a ++ c) := by
  rw [dropRange, if_pos (Nat.le_add_right _ _), cutAtByte_append, ok_bind]
  dsimp only
  rw [cutAtByte_append_append]
  rfl

end Text

namespace Selector

variable {mark : Char}

/-! ### One scan -/

/-- What a scan makes of one position of a text. -/
inductive Piece where
  /-- A marked identifier, taken as the identifier. -/
  | id (token : Text)
  /-- A marked identifier, taken as a class. -/
  | className (token : Text)
  /-- A character that is copied. -/
  | other (c : Char)
  deriving DecidableEq, Repr

namespace Piece

/-- What the piece is in the text. -/
def text : Piece → Text
  | .id token => '#' :: token
  | .className token => '.' :: token
  | .other c => [c]

/-- The identifier that the piece gives. -/
def id? : Piece → Option Text
  | .id token => some token
  | _ => none

/-- The class that the piece gives. -/
def className? : Piece → Option Text
  | .className token => some token
  | _ => none

/-- The character that the piece leaves. -/
def other? : Piece → Option Char
  | .other c => some c
  | _ => none

end Piece

/-- Reads a text once from left to right. At a `#` that is followed by an identifier, the longest
one is taken as the identifier, unless one was taken before; at a `.` it is taken as a class; every
other character is copied. -/
def scan (taken : Bool) (t : Text) : List Piece :=
  match t with
  | [] => []
  | c :: rest =>
    if c = '#' ∧ taken = false ∧ ident rest ≠ [] then
      .id (ident rest) :: scan true (afterIdent rest)
    else if c = '.' ∧ ident rest ≠ [] then
      .className (ident rest) :: scan taken (afterIdent rest)
    else
      .other c :: scan taken rest
termination_by t.length
decreasing_by
  · exact Nat.lt_succ_of_le (length_afterIdent_le rest)
  · exact Nat.lt_succ_of_le (length_afterIdent_le rest)
  · exact Nat.lt_succ_self rest.length

theorem ident_append_afterIdent (t : Text) : ident t ++ afterIdent t = t :=
  List.takeWhile_append_dropWhile

/-- **Nothing is lost, added or moved by a scan.** -/
theorem flatMap_text_scan (taken : Bool) (t : Text) : (scan taken t).flatMap Piece.text = t := by
  fun_induction scan taken t with
  | case1 => rfl
  | case2 taken c rest h ih =>
    rw [List.flatMap_cons, ih, h.1]
    exact congrArg ('#' :: ·) (ident_append_afterIdent rest)
  | case3 taken c rest _ h ih =>
    rw [List.flatMap_cons, ih, h.1]
    exact congrArg ('.' :: ·) (ident_append_afterIdent rest)
  | case4 taken c rest _ _ ih =>
    rw [List.flatMap_cons, ih]
    rfl

/-! ### What a pass leaves -/

theorem ident_eq_nil_iff {t : Text} :
    ident t = [] ↔ ∀ c ∈ t.head?, isIdentChar c = false := by
  cases t with
  | nil => exact ⟨fun _ c hc => absurd hc (by simp), fun _ => rfl⟩
  | cons d t =>
    by_cases hd : isIdentChar d = true
    · rw [ident, List.takeWhile_cons_of_pos hd]
      simp [hd]
    · rw [ident, List.takeWhile_cons_of_neg hd]
      simpa using hd

theorem head?_afterIdent (t : Text) : ∀ c ∈ (afterIdent t).head?, isIdentChar c = false := by
  intro c hc
  have hstop := List.head?_dropWhile_not isIdentChar t
  rw [show (t.dropWhile isIdentChar).head? = some c from hc] at hstop
  exact hstop

theorem takeAll_nil (mark : Char) : takeAll mark [] = ([], []) := by rw [takeAll]

/-- What the class pass leaves continues no identifier, if the text did not. -/
theorem head?_takeAll {t : Text} (ht : ∀ c ∈ t.head?, isIdentChar c = false) :
    ∀ c ∈ (takeAll mark t).2.head?, isIdentChar c = false := by
  fun_induction takeAll mark t with
  | case1 => exact ht
  | case2 c rest _ later ih => exact ih (head?_afterIdent rest)
  | case3 c rest _ later ih => exact Text.forall_head?_cons (ht c rfl) _

/-- **No mark is left that is followed by an identifier character,** neither from the text nor by
the closing of a gap. -/
theorem unmarked_takeAll (mark : Char) (t : Text) : Unmarked mark (takeAll mark t).2 := by
  fun_induction takeAll mark t with
  | case1 => exact unmarked_of_notMem List.not_mem_nil
  | case2 c rest _ later ih => exact ih
  | case3 c rest h later ih =>
    refine unmarked_cons_iff.mpr ⟨?_, ih⟩
    rintro ⟨hmark, hident⟩
    -- The mark was copied because nothing followed it, and nothing follows it now.
    have hrest : ident rest = [] := by
      by_contra hne
      exact h ⟨hmark, hne⟩
    exact hident (ident_eq_nil_iff.mpr (head?_takeAll (ident_eq_nil_iff.mp hrest)))

/-- The pass for the identifier, if none was taken yet. -/
def idPass (taken : Bool) (t : Text) : Option Text × Text :=
  if taken then (none, t) else takeFirst '#' t

@[simp] theorem idPass_false (t : Text) : idPass false t = takeFirst '#' t := rfl

/-- A character is passed over where the scan takes no identifier. -/
theorem idPass_cons {taken : Bool} {c : Char} {rest : Text}
    (h : ¬ (c = '#' ∧ taken = false ∧ ident rest ≠ [])) :
    idPass taken (c :: rest) = ((idPass taken rest).1, c :: (idPass taken rest).2) := by
  cases taken with
  | true => rfl
  | false =>
    have hmark : ¬ (c = '#' ∧ ident rest ≠ []) := fun hmark => h ⟨hmark.1, rfl, hmark.2⟩
    rw [idPass_false, takeFirst, if_neg hmark]
    rfl

/-- A run without the mark is passed over. -/
theorem idPass_append {a b : Text} (ha : '#' ∉ a) (hb : ∀ c ∈ b.head?, isIdentChar c = false)
    (taken : Bool) : idPass taken (a ++ b) = ((idPass taken b).1, a ++ (idPass taken b).2) := by
  cases taken with
  | true => rfl
  | false =>
    rw [idPass_false, takeFirst_append hb, takeFirst_of_unmarked (unmarked_of_notMem ha)]
    rfl

/-- What the identifier pass leaves continues no identifier, if the text did not. -/
theorem head?_idPass (taken : Bool) {t : Text} (ht : ∀ c ∈ t.head?, isIdentChar c = false) :
    ∀ c ∈ (idPass taken t).2.head?, isIdentChar c = false := by
  cases taken with
  | true => exact ht
  | false => exact head?_takeFirst ht

theorem notMem_ident (h : isIdentChar mark = false) (t : Text) : mark ∉ ident t := by
  intro hmem
  rw [List.mem_takeWhile_imp hmem] at h
  cases h

/-! ### The passes and the scan -/

/-- **The identifier pass and then the class pass.** -/
theorem takeAll_idPass (taken : Bool) (t : Text) :
    (idPass taken t).1.toList = (scan taken t).filterMap Piece.id? ∧
      takeAll '.' (idPass taken t).2 =
        ((scan taken t).filterMap Piece.className?, (scan taken t).filterMap Piece.other?) := by
  fun_induction scan taken t with
  | case1 taken => cases taken <;> exact ⟨rfl, takeAll_nil '.'⟩
  | case2 taken c rest h ih =>
    -- The identifier is taken here, and the class pass goes on after it.
    obtain ⟨rfl, rfl, hident⟩ := h
    have htake : idPass false ('#' :: rest) = (some (ident rest), afterIdent rest) := by
      rw [idPass_false, takeFirst, if_pos ⟨rfl, hident⟩]
    rw [htake]
    exact ⟨congrArg ([ident rest] ++ ·) ih.1, ih.2⟩
  | case3 taken c rest hid h ih =>
    -- The identifier pass goes over the class, which is there for the class pass.
    obtain ⟨rfl, hident⟩ := h
    have hover : idPass taken rest =
        ((idPass taken (afterIdent rest)).1, ident rest ++ (idPass taken (afterIdent rest)).2) := by
      rw [← idPass_append (notMem_ident (by decide) rest) (head?_afterIdent rest),
        ident_append_afterIdent]
    rw [idPass_cons hid, hover]
    refine ⟨ih.1, ?_⟩
    rw [takeAll_marked '.' (isIdent_ident hident) (head?_idPass taken (head?_afterIdent rest)),
      ih.2]
    rfl
  | case4 taken c rest hid hclass ih =>
    rw [idPass_cons hid]
    refine ⟨ih.1, ?_⟩
    -- If the character is a dot, what follows it was no identifier and is none now.
    have hleft : ¬ (c = '.' ∧ ident (idPass taken rest).2 ≠ []) := by
      rintro ⟨hdot, hident⟩
      have hrest : ident rest = [] := by
        by_contra hne
        exact hclass ⟨hdot, hne⟩
      exact hident (ident_eq_nil_iff.mpr (head?_idPass taken (ident_eq_nil_iff.mp hrest)))
    rw [takeAll, if_neg hleft, ih.2]
    rfl

/-- **The class pass and then the identifier pass.** -/
theorem idPass_takeAll (taken : Bool) (t : Text) :
    (takeAll '.' t).1 = (scan taken t).filterMap Piece.className? ∧
      (idPass taken (takeAll '.' t).2).1.toList = (scan taken t).filterMap Piece.id? ∧
      (idPass taken (takeAll '.' t).2).2 = (scan taken t).filterMap Piece.other? := by
  fun_induction scan taken t with
  | case1 taken =>
    rw [takeAll_nil]
    cases taken <;> exact ⟨rfl, rfl, rfl⟩
  | case2 taken c rest h ih =>
    -- The class pass goes over the identifier, which is there for the identifier pass.
    obtain ⟨rfl, rfl, hident⟩ := h
    have hover : takeAll '.' ('#' :: rest) = ((takeAll '.' (afterIdent rest)).1,
        '#' :: (ident rest ++ (takeAll '.' (afterIdent rest)).2)) := by
      have hrun : takeAll '.' (ident rest ++ afterIdent rest) = _ :=
        takeAll_append (head?_afterIdent rest)
      rw [ident_append_afterIdent,
        takeAll_of_unmarked (unmarked_of_notMem (notMem_ident (by decide) rest))] at hrun
      rw [takeAll, if_neg (by simp), hrun]
      rfl
    have htake : idPass false ('#' :: (ident rest ++ (takeAll '.' (afterIdent rest)).2)) =
        (some (ident rest), (takeAll '.' (afterIdent rest)).2) :=
      takeFirst_marked '#' (isIdent_ident hident) (head?_takeAll (head?_afterIdent rest))
    rw [hover, htake]
    exact ⟨ih.1, congrArg ([ident rest] ++ ·) ih.2.1, ih.2.2⟩
  | case3 taken c rest hid h ih =>
    obtain ⟨rfl, hident⟩ := h
    rw [takeAll, if_pos ⟨rfl, hident⟩]
    exact ⟨congrArg ([ident rest] ++ ·) ih.1, ih.2⟩
  | case4 taken c rest hid hclass ih =>
    -- If the character is a `#`, what follows it was no identifier and is none now.
    have hleft : ¬ (c = '#' ∧ taken = false ∧ ident (takeAll '.' rest).2 ≠ []) := by
      rintro ⟨hmark, htaken, hident⟩
      have hrest : ident rest = [] := by
        by_contra hne
        exact hid ⟨hmark, htaken, hne⟩
      exact hident (ident_eq_nil_iff.mpr (head?_takeAll (ident_eq_nil_iff.mp hrest)))
    rw [takeAll, if_neg hclass]
    dsimp only
    rw [idPass_cons hleft]
    exact ⟨ih.1, ih.2.1, congrArg (c :: ·) ih.2.2⟩

/-! ### The passes on bytes -/

open Text (Fault slice dropRange offsetsOf)

/-- The longest identifier that a text starts with, cut off at an offset. -/
def identByOffset (t : Text) : Except Fault Text :=
  slice t 0 ((Text.offsetOf? (fun c => !isIdentChar c) t).getD (Text.byteLength t))

theorem identByOffset_eq (t : Text) : identByOffset t = .ok (ident t) := by
  have hstop : (Text.offsetOf? (fun c => !isIdentChar c) t).getD (Text.byteLength t) =
      Text.byteLength (ident t) := by
    rw [Text.getD_offsetOf?]
    simp only [Bool.not_not]
    rfl
  exact Text.slice_start (ident_append_afterIdent t).symm hstop

/-- The identifier after a mark at an offset; a mark takes one byte. -/
def tokenAt (t : Text) (start : Nat) : Except Fault Text := do
  let after ← slice t (start + 1) (Text.byteLength t)
  identByOffset after

theorem tokenAt_append (hsize : mark.utf8Size = 1) (a b : Text) :
    tokenAt (a ++ mark :: b) (Text.byteLength a) = .ok (ident b) := by
  have hafter : slice (a ++ mark :: b) (Text.byteLength a + 1)
      (Text.byteLength (a ++ mark :: b)) = .ok b :=
    Text.slice_end (a := a ++ [mark]) (List.append_cons a mark b) (by simp [hsize])
  rw [tokenAt, hafter, ok_bind, identByOffset_eq]

/-- What is left when a mark and the identifier after it are taken out of their place. -/
theorem dropRange_marked (hsize : mark.utf8Size = 1) (a b : Text) :
    dropRange (a ++ mark :: b) (Text.byteLength a)
        (Text.byteLength a + 1 + Text.byteLength (ident b)) = .ok (a ++ afterIdent b) := by
  have hdrop := Text.dropRange_append a (mark :: ident b) (afterIdent b)
  rwa [List.cons_append, ident_append_afterIdent, Text.byteLength_cons, hsize, ← Nat.add_assoc]
    at hdrop

/-- Tries the marks at some offsets in turn, until one is followed by an identifier. -/
def firstMarked (t : Text) : List Nat → Except Fault (Option (Nat × Text))
  | [] => .ok none
  | start :: later => do
    let token ← tokenAt t start
    if token = [] then firstMarked t later else return some (start, token)

/-- The pass for the first marked identifier, on the bytes of the text. -/
def takeFirstByOffset (mark : Char) (t : Text) : Except Fault (Option Text × Text) := do
  match ← firstMarked t (offsetsOf mark 0 t) with
  | none => return (none, t)
  | some (start, token) =>
    let left ← dropRange t start (start + 1 + Text.byteLength token)
    return (some token, left)

/-- What the search for the first marked identifier finds, whatever is behind it. -/
theorem firstMarked_append (hsize : mark.utf8Size = 1) (behind rest : Text) :
    (firstMarked (behind ++ rest) (offsetsOf mark (Text.byteLength behind) rest) = .ok none ∧
        takeFirst mark rest = (none, rest)) ∨
      ∃ before after, rest = before ++ mark :: after ∧
        firstMarked (behind ++ rest) (offsetsOf mark (Text.byteLength behind) rest) =
          .ok (some (Text.byteLength (behind ++ before), ident after)) ∧
        takeFirst mark rest = (some (ident after), before ++ afterIdent after) := by
  induction rest generalizing behind with
  | nil => exact Or.inl ⟨rfl, rfl⟩
  | cons c rest ih =>
    by_cases hmark : c = mark ∧ ident rest ≠ []
    · -- The first mark is the one.
      obtain ⟨rfl, hident⟩ := hmark
      refine Or.inr ⟨[], rest, rfl, ?_, if_pos ⟨rfl, hident⟩⟩
      rw [offsetsOf, if_pos rfl, firstMarked, tokenAt_append hsize, ok_bind, if_neg hident,
        List.append_nil]
      rfl
    · -- The character goes behind, and the search is that of the rest.
      have hpass : firstMarked (behind ++ c :: rest)
          (offsetsOf mark (Text.byteLength behind) (c :: rest)) =
            firstMarked (behind ++ [c] ++ rest)
              (offsetsOf mark (Text.byteLength (behind ++ [c])) rest) := by
        have hbehind : Text.byteLength behind + c.utf8Size = Text.byteLength (behind ++ [c]) := by
          simp
        rw [offsetsOf, hbehind, List.append_assoc, List.singleton_append]
        by_cases hc : c = mark
        · subst hc
          have hnone : ident rest = [] := by
            by_contra hne
            exact hmark ⟨rfl, hne⟩
          rw [if_pos rfl, firstMarked, tokenAt_append hsize, ok_bind, if_pos hnone]
        · rw [if_neg hc]
      have htake : takeFirst mark (c :: rest) =
          ((takeFirst mark rest).1, c :: (takeFirst mark rest).2) := if_neg hmark
      rw [hpass, htake]
      rcases ih (behind ++ [c]) with ⟨hfound, hnone⟩ | ⟨before, after, rfl, hfound, hsome⟩
      · exact Or.inl ⟨hfound, by rw [hnone]⟩
      · refine Or.inr ⟨c :: before, after, rfl, ?_, by rw [hsome]; rfl⟩
        rw [hfound, List.append_assoc, List.singleton_append]

/-- **The pass for the first marked identifier never fails,** and it finds the same. -/
theorem takeFirstByOffset_eq (hsize : mark.utf8Size = 1) (t : Text) :
    takeFirstByOffset mark t = .ok (takeFirst mark t) := by
  rcases firstMarked_append hsize [] t with ⟨hfound, hnone⟩ | ⟨before, after, ht, hfound, hsome⟩
  · rw [List.nil_append, Text.byteLength_nil] at hfound
    rw [takeFirstByOffset, hfound, hnone]
    rfl
  · rw [List.nil_append, Text.byteLength_nil, List.nil_append] at hfound
    rw [takeFirstByOffset, hfound, ok_bind, hsome]
    dsimp only
    rw [ht, dropRange_marked hsize]
    rfl

/-- A text that is being edited: the offset from which it is still to be searched, and what has been
taken out of it. -/
structure Edit where
  text : Text
  offset : Nat := 0
  tokens : List Text := []
  deriving DecidableEq, Repr

/-- What a round of the loop comes to. -/
inductive Round where
  /-- There is no further mark. -/
  | done
  /-- The loop goes on. -/
  | next (edit : Edit)
  deriving DecidableEq, Repr

/-- One round of the loop that takes out every marked identifier: the next mark is passed over, or
it is taken out with the identifier after it and the search goes on at the gap. -/
def round (mark : Char) (e : Edit) : Except Fault Round := do
  let ahead ← slice e.text e.offset (Text.byteLength e.text)
  match Text.offsetOf? (· = mark) ahead with
  | none => return .done
  | some distance =>
    let token ← tokenAt e.text (e.offset + distance)
    if token = [] then
      return .next { e with offset := e.offset + distance + 1 }
    else
      let left ← dropRange e.text (e.offset + distance)
        (e.offset + distance + 1 + Text.byteLength token)
      return .next ⟨left, e.offset + distance, e.tokens ++ [token]⟩

/-- The loop comes to an end from the one edit with the other, without a failure on the way. -/
inductive Runs (mark : Char) : Edit → Edit → Prop where
  | done {e : Edit} : round mark e = .ok .done → Runs mark e e
  | next {e e' e'' : Edit} :
      round mark e = .ok (.next e') → Runs mark e' e'' → Runs mark e e''

/-- A round that finds no mark in front of the offset. -/
theorem round_of_notMem {behind ahead : Text} (h : mark ∉ ahead) (tokens : List Text) :
    round mark ⟨behind ++ ahead, Text.byteLength behind, tokens⟩ = .ok .done := by
  rw [round, Text.slice_end rfl rfl, ok_bind, Text.offsetOf?_of_notMem h]
  rfl

/-- **One round.** What stands before the next mark goes behind, and then the mark does too or it is
taken out with its identifier. -/
theorem round_append (hsize : mark.utf8Size = 1) {plain : Text} (h : mark ∉ plain)
    (behind after : Text) (tokens : List Text) :
    round mark ⟨behind ++ (plain ++ mark :: after), Text.byteLength behind, tokens⟩ =
      .ok (.next
        (if ident after = [] then
          ⟨behind ++ plain ++ [mark] ++ after, Text.byteLength (behind ++ plain ++ [mark]), tokens⟩
        else ⟨behind ++ plain ++ afterIdent after, Text.byteLength (behind ++ plain),
          tokens ++ [ident after]⟩)) := by
  rw [round, Text.slice_end rfl rfl, ok_bind, Text.offsetOf?_append h]
  dsimp only
  -- The mark is found at the length of what is behind it now.
  rw [← List.append_assoc, ← Text.byteLength_append, tokenAt_append hsize, ok_bind]
  by_cases hident : ident after = []
  · rw [if_pos hident, if_pos hident, List.append_assoc _ [mark], List.singleton_append,
      Text.byteLength_append _ [mark], Text.byteLength_cons, hsize]
    rfl
  · rw [if_neg hident, if_neg hident, dropRange_marked hsize]
    rfl

/-- The class pass up to the next mark and over it. -/
theorem takeAll_plain (hstop : isIdentChar mark = false) {plain : Text} (h : mark ∉ plain)
    (after : Text) :
    takeAll mark (plain ++ mark :: after) =
      ((takeAll mark (mark :: after)).1, plain ++ (takeAll mark (mark :: after)).2) := by
  rw [takeAll_append (Text.forall_head?_cons hstop after),
    takeAll_of_unmarked (unmarked_of_notMem h)]
  rfl

/-- **The loop ends.** From any place in a text it takes out what the pass takes from there, and
what is behind stays. The induction is on how much is in front of the offset, which every round
lessens. -/
theorem runs_append (hsize : mark.utf8Size = 1) (hstop : isIdentChar mark = false)
    (behind ahead : Text) (tokens : List Text) :
    ∃ offset, Runs mark ⟨behind ++ ahead, Text.byteLength behind, tokens⟩
      ⟨behind ++ (takeAll mark ahead).2, offset, tokens ++ (takeAll mark ahead).1⟩ := by
  induction hlength : ahead.length using Nat.strong_induction_on
    generalizing behind ahead tokens with
  | _ n ih =>
    by_cases hmem : mark ∈ ahead
    · obtain ⟨plain, after, rfl, hplain⟩ := List.eq_append_cons_of_mem hmem
      have hround := round_append hsize hplain behind after tokens
      have hshort : after.length < n := by
        rw [← hlength, List.length_append, List.length_cons]
        omega
      rw [takeAll_plain hstop hplain, takeAll]
      by_cases hident : ident after = []
      · rw [if_pos hident] at hround
        obtain ⟨offset, hruns⟩ := ih _ hshort (behind ++ plain ++ [mark]) after tokens rfl
        rw [if_neg fun h => h.2 hident]
        refine ⟨offset, .next hround ?_⟩
        simpa using hruns
      · rw [if_neg hident] at hround
        have hshorter : (afterIdent after).length < n :=
          Nat.lt_of_le_of_lt (length_afterIdent_le after) hshort
        obtain ⟨offset, hruns⟩ :=
          ih _ hshorter (behind ++ plain) (afterIdent after) (tokens ++ [ident after]) rfl
        rw [if_pos ⟨rfl, hident⟩]
        refine ⟨offset, .next hround ?_⟩
        simpa using hruns
    · refine ⟨Text.byteLength behind, ?_⟩
      rw [takeAll_of_unmarked (unmarked_of_notMem hmem), List.append_nil]
      exact .done (round_of_notMem hmem tokens)

/-- **The loop takes out what the pass takes.** -/
theorem runs_takeAll (hsize : mark.utf8Size = 1) (hstop : isIdentChar mark = false) (t : Text) :
    ∃ offset, Runs mark ⟨t, 0, []⟩ ⟨(takeAll mark t).2, offset, (takeAll mark t).1⟩ :=
  runs_append hsize hstop [] t []

/-- **Two passes or one scan.** The pass for the identifier and the pass for the classes after it
find the identifier, the classes and the rest of one scan of the text; so do the two in the other
order. The rest has no dot that is directly followed by an identifier character, and the pieces of
the scan are the text, so that nothing else is lost, added or moved. Made on the bytes of any text
while it is edited, each pass ends without a failure and with the same. -/
theorem passes_eq_scan (t : Text) :
    (takeFirst '#' t).1.toList = (scan false t).filterMap Piece.id? ∧
    takeAll '.' (takeFirst '#' t).2 =
      ((scan false t).filterMap Piece.className?, (scan false t).filterMap Piece.other?) ∧
    (takeAll '.' t).1 = (takeAll '.' (takeFirst '#' t).2).1 ∧
    takeFirst '#' (takeAll '.' t).2 =
      ((takeFirst '#' t).1, (takeAll '.' (takeFirst '#' t).2).2) ∧
    Unmarked '.' ((scan false t).filterMap Piece.other?) ∧
    (scan false t).flatMap Piece.text = t ∧
    ∀ u, takeFirstByOffset '#' u = .ok (takeFirst '#' u) ∧
      ∃ offset, Runs '.' ⟨u, 0, []⟩ ⟨(takeAll '.' u).2, offset, (takeAll '.' u).1⟩ := by
  obtain ⟨hid, hclasses⟩ := takeAll_idPass false t
  obtain ⟨hclasses', hid', hleft'⟩ := idPass_takeAll false t
  rw [idPass_false] at hid hclasses hid' hleft'
  have hunmarked : Unmarked '.' ((scan false t).filterMap Piece.other?) := by
    have hpass := unmarked_takeAll '.' (takeFirst '#' t).2
    rwa [hclasses] at hpass
  refine ⟨hid, hclasses, ?_, ?_, hunmarked, flatMap_text_scan false t, ?_⟩
  · rw [hclasses', hclasses]
  · have hsame := congrArg List.head? (hid'.trans hid.symm)
    rw [Option.head?_toList, Option.head?_toList] at hsame
    rw [hclasses]
    exact Prod.ext hsame hleft'
  · exact fun u => ⟨takeFirstByOffset_eq rfl u, runs_takeAll rfl (by decide) u⟩

end Selector

end Offside
