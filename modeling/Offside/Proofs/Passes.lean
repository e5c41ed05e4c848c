import Offside.Proofs.TagText

/-!
# What each pass takes

A tag line is read in passes over what the passes before have left. Each law here says what one
pass does with a text that is known only in part: the piece that the pass is after, and then
*any* rest that does not continue that piece. Nothing is asked of the rest beyond its first
character, so the laws can be chained in the order of the line.

* **Selectors.** A marked identifier is taken whole (`Selector.takeFirst_marked`,
  `Selector.takeAll_marked`), and a text in which no mark is directly followed by an identifier
  character is left as it is (`Selector.takeFirst_of_unmarked`, `Selector.takeAll_of_unmarked`).
* **The block.** Whatever stands in a quoted run is passed over (`Block.close_run`), so a region
  closes where the text after its runs does; the first opening brace decides if its region closes
  (`Block.find_append`).
* **Entries.** Commas cut the inside of a block into independent parts
  (`Attributes.pieces_append`), and pairs with different keys are kept as they come
  (`Attributes.ofList_of_nodup`).
-/

namespace Offside

/-! ### Selectors -/

namespace Selector

/-- An identifier: a non-empty run of identifier characters. -/
def IsIdent (t : Text) : Prop :=
  t ≠ [] ∧ ∀ c ∈ t, isIdentChar c = true

/-- Nowhere in the text is the mark directly followed by an identifier character. -/
def Unmarked (mark : Char) (t : Text) : Prop :=
  ∀ c, isIdentChar c = true → ¬ [mark, c] <:+: t

variable {mark : Char} {token rest t : Text}

theorem ident_append (h : IsIdent token) (hrest : ∀ c ∈ rest.head?, isIdentChar c = false) :
    ident (token ++ rest) = token :=
  Text.takeWhile_run h.2 hrest

theorem afterIdent_append (h : IsIdent token)
    (hrest : ∀ c ∈ rest.head?, isIdentChar c = false) : afterIdent (token ++ rest) = rest :=
  Text.dropWhile_run h.2 hrest

theorem ident_ne_nil_iff : ident t ≠ [] ↔ ∃ c, isIdentChar c = true ∧ [c] <+: t := by
  cases t with
  | nil => simp [ident]
  | cons d t =>
    by_cases hd : isIdentChar d = true
    · rw [ident, List.takeWhile_cons_of_pos hd]
      exact ⟨fun _ => ⟨d, hd, List.prefix_append [d] t⟩, fun _ => List.cons_ne_nil _ _⟩
    · rw [ident, List.takeWhile_cons_of_neg hd]
      refine ⟨fun h => absurd rfl h, ?_⟩
      rintro ⟨c, hc, hfirst⟩
      obtain ⟨rfl, -⟩ := List.cons_prefix_cons.mp hfirst
      exact absurd hc hd

/-- The test that the passes make at a character is the right one. -/
theorem unmarked_cons_iff {c : Char} :
    Unmarked mark (c :: t) ↔ ¬ (c = mark ∧ ident t ≠ []) ∧ Unmarked mark t := by
  simp only [Unmarked, List.infix_cons_iff, not_or, List.cons_prefix_cons, ident_ne_nil_iff]
  constructor
  · intro h
    refine ⟨?_, fun d hd => (h d hd).2⟩
    rintro ⟨rfl, d, hd, hfirst⟩
    exact (h d hd).1 ⟨rfl, hfirst⟩
  · rintro ⟨hhead, hrest⟩ d hd
    exact ⟨fun hfirst => hhead ⟨hfirst.1.symm, d, hd, hfirst.2⟩, hrest d hd⟩

theorem unmarked_of_notMem (h : mark ∉ t) : Unmarked mark t := by
  intro c _ hpart
  exact h (hpart.subset List.mem_cons_self)

instance decidableUnmarked (mark : Char) : (t : Text) → Decidable (Unmarked mark t)
  | [] => .isTrue (unmarked_of_notMem List.not_mem_nil)
  | _ :: t =>
    have := decidableUnmarked mark t
    decidable_of_iff' _ unmarked_cons_iff

theorem takeFirst_of_unmarked (h : Unmarked mark t) : takeFirst mark t = (none, t) := by
  induction t with
  | nil => rfl
  | cons c t ih =>
    obtain ⟨hhead, ht⟩ := unmarked_cons_iff.mp h
    rw [takeFirst, if_neg hhead, ih ht]

theorem takeAll_of_unmarked (h : Unmarked mark t) : takeAll mark t = ([], t) := by
  induction t with
  | nil => rw [takeAll]
  | cons c t ih =>
    obtain ⟨hhead, ht⟩ := unmarked_cons_iff.mp h
    rw [takeAll, if_neg hhead, ih ht]

/-- A marked identifier at the start of a text is the first one. -/
theorem takeFirst_marked (mark : Char) (h : IsIdent token)
    (hrest : ∀ c ∈ rest.head?, isIdentChar c = false) :
    takeFirst mark (mark :: (token ++ rest)) = (some token, rest) := by
  have hident : ident (token ++ rest) = token := ident_append h hrest
  have hmark : mark = mark ∧ ident (token ++ rest) ≠ [] := ⟨rfl, hident.symm ▸ h.1⟩
  rw [takeFirst, if_pos hmark, hident, afterIdent_append h hrest]

/-- A marked identifier at the start of a text is taken, and the pass goes on after it. -/
theorem takeAll_marked (mark : Char) (h : IsIdent token)
    (hrest : ∀ c ∈ rest.head?, isIdentChar c = false) :
    takeAll mark (mark :: (token ++ rest)) =
      (token :: (takeAll mark rest).1, (takeAll mark rest).2) := by
  have hident : ident (token ++ rest) = token := ident_append h hrest
  have hmark : mark = mark ∧ ident (token ++ rest) ≠ [] := ⟨rfl, hident.symm ▸ h.1⟩
  rw [takeAll, if_pos hmark, hident, afterIdent_append h hrest]

/-- Marked identifiers begin with the mark, if there are any. -/
theorem head?_flatMap_marked (hmark : isIdentChar mark = false) (tokens : List Text) :
    ∀ c ∈ (tokens.flatMap (mark :: ·)).head?, isIdentChar c = false := by
  cases tokens with
  | nil =>
    intro c hc
    cases hc
  | cons first tokens => exact Text.forall_head?_cons hmark _

/-- Identifiers that are marked one after the other are all taken, and nothing is left of them. -/
theorem takeAll_flatMap (hmark : isIdentChar mark = false) {tokens : List Text}
    (h : ∀ token ∈ tokens, IsIdent token) :
    takeAll mark (tokens.flatMap (mark :: ·)) = (tokens, []) := by
  induction tokens with
  | nil => rw [List.flatMap_nil, takeAll]
  | cons token tokens ih =>
    -- The mark of the next identifier, if there is one, ends this one.
    have hstop := head?_flatMap_marked hmark tokens
    rw [List.flatMap_cons, List.cons_append, takeAll_marked mark (h token List.mem_cons_self) hstop,
      ih fun later hlater => h later (List.mem_cons_of_mem _ hlater)]

end Selector

/-! ### The block

What is known of the text after a piece is where its region closes, with the inside that it adds
and the text that it leaves. -/

namespace Block

variable {depth : Nat} {previous q : Char} {body rest inner after : Text}

/-- The parts that a scan gives, with a text that was read before it. -/
def prepend (front : Text) (parts : Text × Text) : Text × Text :=
  (front ++ parts.1, parts.2)

/-- Within a quoted run the scan looks for its end and nothing else. -/
theorem close_run_eq (hbody : q ∉ body) :
    close depth (some q) previous (body ++ q :: rest) =
      (close depth none q rest).map (prepend (body ++ [q])) := by
  induction body generalizing previous with
  | nil =>
    rw [List.nil_append, close]
    dsimp only
    rw [if_pos rfl]
    rfl
  | cons c body ih =>
    have hc : c ≠ q := fun hc => hbody (hc ▸ List.mem_cons_self)
    rw [List.cons_append, close]
    dsimp only
    rw [if_neg hc, ih fun hmem => hbody (List.mem_cons_of_mem _ hmem), Option.map_map]
    rfl

/-- Within a quoted run everything up to its end belongs to the inside. -/
theorem close_quoted (hbody : q ∉ body) (h : close depth none q rest = some (inner, after)) :
    close depth (some q) previous (body ++ q :: rest) = some (body ++ q :: inner, after) := by
  rw [close_run_eq hbody, h, Option.map_some, prepend, List.append_assoc, List.singleton_append]

/-- **A quoted run is passed over,** braces and all, where a run may begin. -/
theorem close_run (hq : isQuote q = true) (hprevious : admitsQuote previous = true)
    (hbody : q ∉ body) (h : close depth none q rest = some (inner, after)) :
    close depth none previous (q :: (body ++ q :: rest)) =
      some (q :: (body ++ q :: inner), after) := by
  unfold close
  dsimp only
  rw [hq, hprevious, Bool.and_true, if_pos rfl, close_quoted hbody h]
  rfl

/-- A character that is no brace and no quote mark belongs to the inside. -/
theorem close_plain {c : Char} (hquote : isQuote c = false) (hopen : c ≠ '{') (hclose : c ≠ '}')
    (h : close depth none c rest = some (inner, after)) :
    close depth none previous (c :: rest) = some (c :: inner, after) := by
  unfold close
  dsimp only
  rw [hquote, Bool.false_and, if_neg Bool.false_ne_true, if_neg hopen, if_neg hclose, h]
  rfl

/-- A closing brace ends the region that it stands in. -/
theorem close_brace (previous : Char) (after : Text) :
    close 0 none previous ('}' :: after) = some ([], after) := rfl

/-- **The first opening brace decides,** if its region closes. -/
theorem find_append {before : Text} (hbefore : '{' ∉ before)
    (h : region rest = some (inner, after)) :
    find (before ++ '{' :: rest) = .closed before inner after := by
  induction before with
  | nil => rw [List.nil_append, find, if_pos rfl, h]
  | cons c before ih =>
    have hc : c ≠ '{' := fun hc => hbefore (hc ▸ List.mem_cons_self)
    rw [List.cons_append, find, if_neg hc, ih fun hmem => hbefore (List.mem_cons_of_mem _ hmem)]
    rfl

end Block

/-! ### Entries -/

namespace Attributes

/-- **A comma cuts the inside of a block in two,** wherever it stands. -/
theorem pieces_append (a b : Text) : pieces (a ++ ',' :: b) = pieces a ++ pieces b := by
  rw [pieces, List.splitOn_append_cons_self, List.map_append, List.filter_append]
  rfl

theorem pieces_of_free {t : Text} (h : ',' ∉ t) (hne : Text.trim t ≠ []) :
    pieces t = [Text.trim t] := by
  rw [pieces, List.splitOn_eq_singleton h, List.map_singleton, List.filter_singleton]
  simp [hne]

/-- A text between two quote marks loses them. -/
theorem unquote_quoted (t : Text) : unquote ('"' :: (t ++ ['"'])) = t := by
  have hquoted : isQuotedBy '"' ('"' :: (t ++ ['"'])) = true := by
    rw [isQuotedBy, ← List.cons_append, List.getLast?_concat]
    simp
  rw [unquote, hquoted, Bool.true_or, if_pos rfl, List.tail_cons, List.dropLast_concat]

theorem setEntry_of_notMem {key value : Text} {entries : List (Text × Text)}
    (h : key ∉ entries.map Prod.fst) : setEntry key value entries = entries ++ [(key, value)] := by
  induction entries with
  | nil => rfl
  | cons e entries ih =>
    obtain ⟨k, v⟩ := e
    rw [List.map_cons, List.mem_cons, not_or] at h
    rw [setEntry, if_neg (Ne.symm h.1), ih h.2, List.cons_append]

/-- Pairs whose keys are new and differ go to the end as they come. -/
theorem insertAll_of_nodup {a : Attributes} {pairs : List (Text × Text)}
    (h : (a.keys ++ pairs.map Prod.fst).Nodup) : a.insertAll pairs = ⟨a.entries ++ pairs⟩ := by
  induction pairs generalizing a with
  | nil => rw [List.append_nil]; rfl
  | cons e pairs ih =>
    obtain ⟨key, value⟩ := e
    have hnew : key ∉ a.keys := fun hmem =>
      (List.nodup_append.mp h).2.2 key hmem key List.mem_cons_self rfl
    have hinsert : a.insert key value = ⟨a.entries ++ [(key, value)]⟩ := by
      rw [insert, setEntry_of_notMem hnew]
    -- The keys are the same in the same order, only that one of them has now been set.
    have hkeys : ((a.insert key value).keys ++ pairs.map Prod.fst).Nodup := by
      rw [hinsert, keys, List.map_append, List.append_assoc]
      exact h
    show (a.insert key value).insertAll pairs = _
    rw [ih hkeys, hinsert, List.append_assoc, List.singleton_append]

theorem ofList_of_nodup {pairs : List (Text × Text)} (h : (pairs.map Prod.fst).Nodup) :
    ofList pairs = ⟨pairs⟩ :=
  insertAll_of_nodup (a := {}) h

theorem get?_of_notMem {a : Attributes} {key : Text} (h : key ∉ a.keys) : a.get? key = none := by
  refine List.lookup_eq_none_iff.mpr fun e he => ?_
  have hne : key ≠ e.1 := fun heq => h (heq ▸ List.mem_map_of_mem he)
  exact bne_iff_ne.mpr hne

theorem erase_of_notMem {a : Attributes} {key : Text} (h : key ∉ a.keys) : a.erase key = a := by
  have hall : a.entries.filter (·.1 ≠ key) = a.entries := by
    refine List.filter_eq_self.mpr fun e he => ?_
    refine decide_eq_true fun heq => ?_
    exact h (heq ▸ List.mem_map_of_mem he)
  rw [erase, hall]

end Attributes

end Offside
