import Offside.Proofs.HighlightOffsets

/-!
# What highlighting keeps

Highlighting puts sequences into markup that a terminal understands and a reader does not see. Taken
out again they leave the markup as it was (**`Highlight.highlight_keeps_text`**). There are three
reasons.

* **Cutting loses nothing.** The pieces of markup, in order, are the markup, whatever tags and
  quotes are left open in it; and if there are no pieces, a blank of several bytes is to blame
  (`Highlight.cuts_pieces`). Both are said of the outcome at once (`Highlight.Cuts`), and the
  inductions follow the rounds of the two loops.
* **Painting can be undone.** A painted piece is the piece between two sequences, each of which goes
  from an escape character to the next `m` (`Ansi.plain_paint`). Were there an escape character in
  the piece itself, it could begin a sequence of its own. Markup without one has no such pieces.
* **Byte offsets are no obstacle.** Cut by its bytes, the markup comes to the same pieces
  (`Highlight.highlightByOffset_eq`).
-/

namespace Offside

/-! ### Taking sequences out -/

namespace Ansi

/-- A text without its sequences, each from an escape character to the next `m`, or to the end if
there is none. The flag says that the text begins within one. -/
def plainFrom : Bool → Text → Text
  | _, [] => []
  | true, c :: t => plainFrom (c != 'm') t
  | false, c :: t => if c = escape then plainFrom true t else c :: plainFrom false t

/-- A text without its sequences. -/
def plain (t : Text) : Text :=
  plainFrom false t

variable {t : Text}

theorem plain_append_of_free (h : escape ∉ t) (rest : Text) :
    plain (t ++ rest) = t ++ plain rest := by
  induction t with
  | nil => rfl
  | cons c t ih =>
    have hc : c ≠ escape := fun hc => h (hc ▸ List.mem_cons_self)
    have ht := ih fun hmem => h (List.mem_cons_of_mem c hmem)
    show plainFrom false (c :: (t ++ rest)) = c :: (t ++ plain rest)
    rw [plainFrom, if_neg hc]
    exact congrArg (c :: ·) ht

theorem plainFrom_sequence {body : Text} (h : 'm' ∉ body) (rest : Text) :
    plainFrom true (body ++ 'm' :: rest) = plain rest := by
  induction body with
  | nil => rfl
  | cons c body ih =>
    have hc : (c != 'm') = true := by simpa using fun hc : c = 'm' => h (hc ▸ List.mem_cons_self)
    rw [List.cons_append, plainFrom, hc]
    exact ih fun hmem => h (List.mem_cons_of_mem c hmem)

/-- A sequence is taken out, whatever comes after it. -/
theorem plain_sequence {body : Text} (h : 'm' ∉ body) (rest : Text) :
    plain (escape :: (body ++ 'm' :: rest)) = plain rest := by
  show plainFrom false (escape :: (body ++ 'm' :: rest)) = plain rest
  rw [plainFrom, if_pos rfl, plainFrom_sequence h]

theorem exists_start (style : Style) :
    ∃ body, 'm' ∉ body ∧ style.start = escape :: (body ++ ['m']) := by
  obtain ⟨colour, bold⟩ := style
  refine ⟨'[' :: ((if bold then ['1', ';'] else []) ++ colour.code), ?_, ?_⟩
  · cases colour <;> cases bold <;> decide
  · simp [Style.start]

/-- Where nothing switches styles off, nothing has to be switched on again. -/
theorem resume_of_free (start : Text) (h : escape ∉ t) : resume start t = t := by
  fun_induction resume start t with
  | case1 => rfl
  | case2 after ih => exact absurd List.mem_cons_self h
  | case3 c rest _ ih => rw [ih fun hmem => h (List.mem_cons_of_mem c hmem)]

/-- **Painting can be undone.** -/
theorem plain_paint (style : Style) (h : escape ∉ t) (rest : Text) :
    plain (paint true style t ++ rest) = t ++ plain rest := by
  obtain ⟨body, hbody, hstart⟩ := exists_start style
  have hpaint : paint true style t ++ rest =
      escape :: (body ++ 'm' :: (t ++ escape :: (['[', '0'] ++ 'm' :: rest))) := by
    rw [paint, if_pos rfl, resume_of_free _ h, hstart, reset]
    simp
  rw [hpaint, plain_sequence hbody, plain_append_of_free h, plain_sequence (by decide)]

end Ansi

namespace Highlight

/-! ### Cutting loses nothing -/

/-- **What cutting a text may come to.** Pieces that make up the text, or a blank of several bytes
that is in it. -/
def Cuts (t : Text) : Except WideBlank (List Piece) → Prop
  | .ok pieces => pieces.flatMap Piece.text = t
  | .error e => e.blank ∈ t ∧ isBlank e.blank = true ∧ e.blank.utf8Size ≠ 1

variable {t u : Text} {x y : Except WideBlank (List Piece)}

/-- Two texts that are cut one after the other are cut as a whole. -/
theorem Cuts.append (hx : Cuts t x) (hy : Cuts u y) :
    Cuts (t ++ u) (do let first ← x; let rest ← y; return first ++ rest) := by
  cases x with
  | error e => exact ⟨List.mem_append_left u hx.1, hx.2⟩
  | ok first =>
    cases y with
    | error e => exact ⟨List.mem_append_right t hy.1, hy.2⟩
    | ok rest =>
      show (first ++ rest).flatMap Piece.text = t ++ u
      rw [List.flatMap_append]
      exact congrArg₂ (· ++ ·) hx hy

/-- A key is cut off its blank, and either way its text is accounted for. -/
theorem cuts_splitKey (before : Text) :
    Cuts before (do
      let key ← splitKey before
      return [⟨.plain, key.1⟩, ⟨.key, key.2⟩]) := by
  rcases splitKey_cases before with ⟨-, hsplit⟩ | ⟨lead, blank, key, rfl, hblank, -, hsplit⟩
  · rw [hsplit]
    show [] ++ (before ++ []) = before
    rw [List.nil_append, List.append_nil]
  · rw [hsplit]
    by_cases hsize : blank.utf8Size = 1
    · rw [if_pos hsize]
      show (lead ++ [blank]) ++ (key ++ []) = lead ++ blank :: key
      rw [List.append_nil, List.append_assoc, List.singleton_append]
    · rw [if_neg hsize]
      exact ⟨List.mem_append_right lead List.mem_cons_self, hblank, hsize⟩

/-- **The attributes of a tag.** -/
theorem cuts_attributePieces (t : Text) : Cuts t (attributePieces t) := by
  induction t using attributePieces.induct with
  | case1 =>
    rw [attributePieces_nil]
    rfl
  | case2 t hne hcut =>
    rw [attributePieces_of_none hne hcut]
    exact List.append_nil t
  | case3 t hne before after hcut ih =>
    -- A round consists of the key, the value with the `=` before it, and the later rounds.
    have ht : t = before ++ ('=' :: (quoted after).1 ++ (quoted after).2) := by
      rw [List.cons_append, append_quoted]
      exact eq_of_cutAssignment hcut
    have hvalue : Cuts ('=' :: (quoted after).1)
        (.ok [⟨.plain, ['=']⟩, ⟨.value, (quoted after).1⟩]) := by
      show '=' :: ((quoted after).1 ++ []) = _
      rw [List.append_nil]
    have hround := (cuts_splitKey before).append (hvalue.append ih)
    rw [← ht] at hround
    rw [attributePieces_of_some hcut]
    -- The key decides first and then the later rounds, in whatever order they are put together.
    generalize splitKey before = key at hround ⊢
    generalize attributePieces (quoted after).2 = rest at hround ⊢
    cases key <;> cases rest <;> exact hround

theorem cuts_tagPieces (t : Text) : Cuts ('<' :: t) (tagPieces t) := by
  have hname : Cuts ('<' :: t.takeWhile fun c => !endsName c)
      (.ok [⟨.name, '<' :: t.takeWhile fun c => !endsName c⟩]) :=
    List.append_nil _
  have htag := hname.append (cuts_attributePieces (t.dropWhile fun c => !endsName c))
  rw [List.cons_append, List.takeWhile_append_dropWhile] at htag
  exact htag

/-- **Markup is cut without loss,** or a blank of several bytes in it is to blame. -/
theorem cuts_pieces (t : Text) : Cuts t (pieces t) := by
  induction t using pieces.induct with
  | case1 t hcut =>
    rw [pieces_of_none hcut]
    exact List.append_nil t
  | case2 t before after hcut ih =>
    -- A round consists of the text before a tag, the tag, and the later rounds.
    have ht : t = before ++ ('<' :: (tagText after).1 ++ (tagText after).2) := by
      rw [List.cons_append, append_tagText]
      exact Text.eq_of_cutAt hcut
    have hbefore : Cuts before (.ok [⟨.plain, before⟩]) := List.append_nil before
    have hround := hbefore.append ((cuts_tagPieces (tagText after).1).append ih)
    rw [← ht] at hround
    rw [pieces_of_some hcut]
    generalize tagPieces (tagText after).1 = tag at hround ⊢
    generalize pieces (tagText after).2 = rest at hround ⊢
    cases tag <;> cases rest <;> exact hround

/-! ### Painting and taking the paint off -/

theorem paint_false (piece : Piece) : piece.paint false = piece.text := by
  obtain ⟨role, text⟩ := piece
  cases role <;> rfl

theorem plain_paint_append {piece : Piece} (h : Ansi.escape ∉ piece.text) (rest : Text) :
    Ansi.plain (piece.paint true ++ rest) = piece.text ++ Ansi.plain rest := by
  unfold Piece.paint
  split
  · exact Ansi.plain_append_of_free h rest
  · exact Ansi.plain_paint _ h rest

theorem plain_flatMap_paint {pieces : List Piece}
    (h : Ansi.escape ∉ pieces.flatMap Piece.text) :
    Ansi.plain (pieces.flatMap (Piece.paint true)) = pieces.flatMap Piece.text := by
  induction pieces with
  | nil => rfl
  | cons piece pieces ih =>
    rw [List.flatMap_cons] at h ⊢
    have hpiece := plain_paint_append (fun hmem => h (List.mem_append_left _ hmem))
      (pieces.flatMap (Piece.paint true))
    rw [hpiece, ih fun hmem => h (List.mem_append_right _ hmem), List.flatMap_cons]

/-! ### Highlighting as a whole -/

variable {markup text : Text} {coloured : Bool}

/-- Highlighting that returns has painted the pieces of the markup. -/
theorem exists_pieces (h : highlight coloured markup = .ok text) :
    ∃ pieces : List Piece, text = pieces.flatMap (Piece.paint coloured) ∧
      pieces.flatMap Piece.text = markup := by
  have hcuts := cuts_pieces markup
  unfold highlight at h
  cases hpieces : pieces markup with
  | error e =>
    rw [hpieces] at h
    cases h
  | ok ps =>
    rw [hpieces] at h hcuts
    exact ⟨ps, (Except.ok.inj h).symm, hcuts⟩

/-- Highlighting that is refused has come upon a blank of several bytes. -/
theorem wide_of_error {e : WideBlank} (h : highlight coloured markup = .error e) :
    e.blank ∈ markup ∧ isBlank e.blank = true ∧ e.blank.utf8Size ≠ 1 := by
  have hcuts := cuts_pieces markup
  unfold highlight at h
  cases hpieces : pieces markup with
  | error e' =>
    rw [hpieces] at h hcuts
    obtain rfl : e' = e := Except.error.inj h
    exact hcuts
  | ok ps =>
    rw [hpieces] at h
    cases h

theorem utf8Size_of_ascii {c : Char} (h : c.toNat < 128) : c.utf8Size = 1 := by
  rw [Char.utf8Size_eq_one_iff, UInt32.le_iff_toNat_le]
  exact Nat.le_of_lt_succ h

/-- **Highlighting never changes the text.** If it returns, then without colour it returns the
markup, and with colour it returns the markup once the sequences are taken out, provided that the
markup has no escape character. It does return for all markup whose blanks are ASCII, and so does a
highlighter that works by byte offsets: the two never differ but in how they say that a key would
have to start within a blank. -/
theorem highlight_keeps_text (markup : Text) :
    (∀ text, highlight false markup = .ok text → text = markup) ∧
    (∀ text, highlight true markup = .ok text → Ansi.escape ∉ markup →
      Ansi.plain text = markup) ∧
    ((∀ c ∈ markup, isBlank c = true → c.toNat < 128) →
      ∀ coloured, ∃ text, highlight coloured markup = .ok text ∧
        highlightByOffset coloured markup = .ok text) ∧
    ∀ coloured, highlightByOffset coloured markup =
      (highlight coloured markup).mapError fun _ => .outOfRange := by
  refine ⟨?_, ?_, ?_, fun coloured => highlightByOffset_eq coloured markup⟩
  · intro text h
    obtain ⟨ps, rfl, hmarkup⟩ := exists_pieces h
    rw [← hmarkup]
    congr 1
    funext piece
    exact paint_false piece
  · intro text h hescape
    obtain ⟨ps, rfl, hmarkup⟩ := exists_pieces h
    rw [← hmarkup] at hescape ⊢
    exact plain_flatMap_paint hescape
  · intro hascii coloured
    cases hresult : highlight coloured markup with
    | error e =>
      obtain ⟨hmem, hblank, hsize⟩ := wide_of_error hresult
      exact absurd (utf8Size_of_ascii (hascii e.blank hmem hblank)) hsize
    | ok text =>
      refine ⟨text, rfl, ?_⟩
      rw [highlightByOffset_eq, hresult]
      rfl

/-- Markup with a value that holds a closing bracket, a value and a tag that are never closed, and
characters of several bytes that are not blank. -/
def unclosed : Text :=
  "\u00e9<p\tk=\"x>\" y<b c =\"d\u200b".toList

theorem highlight_keeps_text_unclosed :
    (∀ c ∈ unclosed, isBlank c = true → c.toNat < 128) ∧
    ∃ text, highlight true unclosed = .ok text ∧
      text = "\u00e9\x1b[1;34m<p\x1b[0m\t\x1b[36mk\x1b[0m=\x1b[32m\"x>\x1b[0m\" y".toList ++
        "\x1b[1;34m<b\x1b[0m c \x1b[36m\x1b[0m=\x1b[32m\"d\u200b\x1b[0m".toList ∧
      Ansi.plain text = unclosed ∧ highlightByOffset true unclosed = .ok text := by
  have hblanks : (unclosed.all fun c => !isBlank c || c.toNat < 128) = true := by decide
  have hascii : ∀ c ∈ unclosed, isBlank c = true → c.toNat < 128 := by
    intro c hc hblank
    have hboth := List.all_eq_true.mp hblanks c hc
    simpa [hblank] using hboth
  have hescape : Ansi.escape ∉ unclosed := by decide
  obtain ⟨-, hplain, hreturns, -⟩ := highlight_keeps_text unclosed
  obtain ⟨text, htext, hoffset⟩ := hreturns hascii true
  refine ⟨hascii, text, htext, Except.ok.inj (htext.symm.trans ?_), hplain text htext hescape,
    hoffset⟩
  cbv

end Highlight

end Offside
