import Offside.Proofs.Passes

/-!
# Every piece of a block is accounted for

The inside of an attribute block is cut at its commas, and each piece that is left after trimming
either is an entry or is handed back. `IsEntry` says which, by the text before the first colon of
the piece alone: there has to be a colon, and a key before it. The entries are then set one after
the other in a map that remembers the order of its keys.

What such a run of settings comes to can be said without following it
(`Attributes.keys_insertAll`, `Attributes.get?_insertAll`): the keys are those of the map and of
the settings in order of first occurrence, and a key has the value that it was set to last. Since
the keys of a map are distinct, its keys and its values together are the map (`Attributes.ext_get?`),
so these two laws decide every question about order and repetition. One of them is whether settings
may be gathered in a map of their own before they are made, and they may
(`Attributes.insertAll_entries_ofList`).

**`Attributes.block_accounts`** is what this makes of the inside of a block, and of two insides
with a comma between them. The comma counts wherever it stands, also between quotes.
-/

namespace Offside

/-! ### Lists without their repetitions -/

section Repetitions

variable {α : Type} [BEq α] [LawfulBEq α]

theorem filter_eraseDups (p : α → Bool) (l : List α) :
    l.eraseDups.filter p = (l.filter p).eraseDups := by
  match l with
  | [] => rfl
  | a :: l =>
    -- Taking out the repetitions of the head leaves a list that is no longer than the rest.
    have hlength : (l.filter fun b => !b == a).length < l.length + 1 :=
      Nat.lt_succ_of_le (List.length_filter_le _ _)
    have ih := filter_eraseDups p (l.filter fun b => !b == a)
    rw [List.eraseDups_cons, List.filter_cons, List.filter_cons, ih]
    by_cases ha : p a = true
    · rw [if_pos ha, if_pos ha, List.eraseDups_cons, List.filter_comm]
    · -- The head is not wanted, so its repetitions would have gone with it in any case.
      have hrest : (l.filter fun b => !b == a).filter p = l.filter p := by
        rw [List.filter_filter]
        refine List.filter_congr fun b _ => ?_
        by_cases hb : b = a
        · simp [hb, ha]
        · simp [hb]
      rw [if_neg ha, if_neg ha, hrest]
termination_by l.length

theorem nodup_eraseDups (l : List α) : l.eraseDups.Nodup := by
  match l with
  | [] => exact List.nodup_nil
  | a :: l =>
    have hlength : (l.filter fun b => !b == a).length < l.length + 1 :=
      Nat.lt_succ_of_le (List.length_filter_le _ _)
    rw [List.eraseDups_cons]
    refine List.nodup_cons.mpr ⟨fun hmem => ?_, nodup_eraseDups _⟩
    have hkept := (List.mem_filter.mp (List.mem_eraseDups.mp hmem)).2
    simp at hkept
termination_by l.length

theorem eraseDups_of_nodup {l : List α} (h : l.Nodup) : l.eraseDups = l := by
  induction l with
  | nil => rfl
  | cons a l ih =>
    obtain ⟨hhead, hrest⟩ := List.nodup_cons.mp h
    have hkept : (l.filter fun b => !b == a) = l := by
      refine List.filter_eq_self.mpr fun b hb => ?_
      have hne : b ≠ a := fun hba => hhead (hba ▸ hb)
      simpa using hne
    rw [List.eraseDups_cons, hkept, ih hrest]

/-- What occurred before adds nothing. -/
theorem eraseDups_append_cons_of_mem {l m : List α} {a : α} (h : a ∈ l) :
    (l ++ a :: m).eraseDups = (l ++ m).eraseDups := by
  have hcontains : ¬ l.contains a = false := by simpa using h
  rw [List.eraseDups_append, List.eraseDups_append, List.cons_removeAll, if_neg hcontains]

theorem eraseDups_append_eraseDups (l m : List α) :
    (l ++ m.eraseDups).eraseDups = (l ++ m).eraseDups := by
  rw [List.eraseDups_append, List.eraseDups_append]
  unfold List.removeAll
  rw [filter_eraseDups, eraseDups_of_nodup (nodup_eraseDups _)]

end Repetitions

namespace Attributes

/-! ### A run of settings -/

/-- **Setting a key** leaves the keys as they are, or puts a new one at the end. -/
theorem keys_insert (a : Attributes) (key value : Text) :
    (a.insert key value).keys = if key ∈ a.keys then a.keys else a.keys ++ [key] := by
  show (setEntry key value a.entries).map Prod.fst =
    if key ∈ a.entries.map Prod.fst then a.entries.map Prod.fst
      else a.entries.map Prod.fst ++ [key]
  induction a.entries with
  | nil => rfl
  | cons e entries ih =>
    obtain ⟨k, v⟩ := e
    by_cases hk : k = key
    · rw [setEntry, if_pos hk, List.map_cons, List.map_cons, hk, if_pos List.mem_cons_self]
    · -- The search goes on, and whether the key is there depends on the rest alone.
      have hmem : key ∈ k :: entries.map Prod.fst ↔ key ∈ entries.map Prod.fst :=
        List.mem_cons.trans (or_iff_right (Ne.symm hk))
      rw [setEntry, if_neg hk, List.map_cons, ih, List.map_cons]
      by_cases hthere : key ∈ entries.map Prod.fst
      · rw [if_pos hthere, if_pos (hmem.mpr hthere)]
      · rw [if_neg hthere, if_neg (hmem.not.mpr hthere), List.cons_append]

theorem nodup_insert {a : Attributes} (h : a.keys.Nodup) (key value : Text) :
    (a.insert key value).keys.Nodup := by
  rw [keys_insert]
  split
  · exact h
  · rename_i hnew
    exact List.nodup_append.mpr ⟨h, List.nodup_singleton key, fun k hk k' hk' heq =>
      hnew (List.mem_singleton.mp hk' ▸ heq ▸ hk)⟩

/-- **The keys of a run of settings** come in order of first occurrence. -/
theorem keys_insertAll {a : Attributes} (h : a.keys.Nodup) (pairs : List (Text × Text)) :
    (a.insertAll pairs).keys = (a.keys ++ pairs.map Prod.fst).eraseDups := by
  induction pairs generalizing a with
  | nil => rw [List.map_nil, List.append_nil, eraseDups_of_nodup h]; rfl
  | cons e pairs ih =>
    have hstep : (a.insertAll (e :: pairs)).keys =
        ((a.insert e.1 e.2).keys ++ pairs.map Prod.fst).eraseDups := ih (nodup_insert h e.1 e.2)
    rw [hstep, keys_insert, List.map_cons]
    split
    · rename_i hmem
      exact (eraseDups_append_cons_of_mem hmem).symm
    · rw [List.append_assoc, List.singleton_append]

theorem nodup_insertAll {a : Attributes} (h : a.keys.Nodup) (pairs : List (Text × Text)) :
    (a.insertAll pairs).keys.Nodup := by
  rw [keys_insertAll h]
  exact nodup_eraseDups _

theorem keys_ofList (pairs : List (Text × Text)) :
    (ofList pairs).keys = (pairs.map Prod.fst).eraseDups :=
  keys_insertAll (a := {}) List.nodup_nil pairs

theorem nodup_ofList (pairs : List (Text × Text)) : (ofList pairs).keys.Nodup :=
  nodup_insertAll (a := {}) List.nodup_nil pairs

/-- **The values of a run of settings:** a key has the value that it was set to last, or that of
the map before. -/
theorem get?_insertAll (a : Attributes) (pairs : List (Text × Text)) (key : Text) :
    (a.insertAll pairs).get? key =
      ((pairs.filter fun e => e.1 = key).getLast?.map Prod.snd).or (a.get? key) := by
  -- The last setting is the one that counts, so the induction takes it off first.
  induction pairs using List.reverseRecOn with
  | nil => rfl
  | append_singleton pairs e ih =>
    have hlast : a.insertAll (pairs ++ [e]) = (a.insertAll pairs).insert e.1 e.2 :=
      insertAll_append a pairs [e]
    rw [hlast, get?_insert, ih, List.filter_append]
    by_cases hkey : key = e.1
    · have hkept : [e].filter (fun e => e.1 = key) = [e] := by simp [hkey]
      rw [if_pos hkey, hkept, List.getLast?_concat, Option.map_some, Option.some_or]
    · have hnone : [e].filter (fun e => e.1 = key) = [] := by simp [Ne.symm hkey]
      rw [if_neg hkey, hnone, List.append_nil]

/-- **A map is its keys with their values.** -/
theorem ext_get? {a b : Attributes} (hnodup : a.keys.Nodup) (hkeys : a.keys = b.keys)
    (hget : ∀ key, a.get? key = b.get? key) : a = b := by
  obtain ⟨as⟩ := a
  obtain ⟨bs⟩ := b
  congr 1
  simp only [keys] at hnodup hkeys
  simp only [get?] at hget
  induction as generalizing bs with
  | nil => exact (List.map_eq_nil_iff.mp hkeys.symm).symm
  | cons e as ih =>
    obtain ⟨e', bs, rfl⟩ : ∃ e' bs', bs = e' :: bs' :=
      List.exists_cons_of_ne_nil fun hnil => by simp [hnil] at hkeys
    obtain ⟨hfirst, hrest⟩ := List.cons.inj hkeys
    obtain ⟨hnew, hnodup⟩ := List.nodup_cons.mp hnodup
    -- The first keys agree, and looking them up shows that their values do.
    have hvalue : e.2 = e'.2 := by
      have hfound := hget e.1
      rw [List.lookup_cons, List.lookup_cons, ← hfirst, beq_self_eq_true] at hfound
      exact Option.some.inj hfound
    -- No other key is the first one, so the rests answer every question alike.
    have hothers : ∀ key, as.lookup key = bs.lookup key := by
      intro key
      by_cases hkey : key = e.1
      · have hnone : ∀ {l : List (Text × Text)}, e.1 ∉ l.map Prod.fst → l.lookup key = none :=
          fun hmem => get?_of_notMem (a := ⟨_⟩) (hkey ▸ hmem)
        rw [hnone hnew, hnone (hrest ▸ hnew)]
      · have hfound := hget key
        rwa [List.lookup_cons, List.lookup_cons, ← hfirst, beq_false_of_ne hkey] at hfound
    exact congrArg₂ List.cons (Prod.ext hfirst hvalue) (ih hnodup bs hrest hothers)

/-- **Settings may be gathered first.** Setting the pairs of the map that a list gives comes to the
same as setting the pairs of the list. -/
theorem insertAll_entries_ofList {a : Attributes} (h : a.keys.Nodup)
    (pairs : List (Text × Text)) : a.insertAll (ofList pairs).entries = a.insertAll pairs := by
  apply ext_get? (nodup_insertAll h _)
  · calc (a.insertAll (ofList pairs).entries).keys
        = (a.keys ++ (ofList pairs).keys).eraseDups := keys_insertAll h _
      _ = (a.keys ++ (pairs.map Prod.fst).eraseDups).eraseDups := by rw [keys_ofList]
      _ = (a.keys ++ pairs.map Prod.fst).eraseDups := eraseDups_append_eraseDups _ _
      _ = (a.insertAll pairs).keys := (keys_insertAll h pairs).symm
  · intro key
    -- Gathering twice is gathering once, so both sides look for the last setting of the key.
    have hgathered : ofList (ofList pairs).entries = ofList pairs :=
      ofList_of_nodup (nodup_ofList pairs)
    have hlast : ∀ ps : List (Text × Text), (ofList ps).get? key =
        (ps.filter fun e => e.1 = key).getLast?.map Prod.snd := fun ps =>
      (get?_insertAll {} ps key).trans (Option.or_none)
    rw [get?_insertAll, get?_insertAll, ← hlast, ← hlast, hgathered]

/-! ### Pieces -/

/-- The key of a piece: what stands before its first colon, trimmed and without its quotes. -/
def entryKey (piece : Text) : Text :=
  unquote (Text.trim (piece.takeWhile (· != ':')))

/-- The value of a piece: what stands after its first colon, trimmed and without its quotes. -/
def entryValue (piece : Text) : Text :=
  unquote (Text.trim (piece.dropWhile (· != ':')).tail)

/-- A piece is an entry when it has a colon and a key before it. -/
def IsEntry (piece : Text) : Prop :=
  ':' ∈ piece ∧ entryKey piece ≠ []

instance : DecidablePred IsEntry := fun piece =>
  inferInstanceAs (Decidable (':' ∈ piece ∧ entryKey piece ≠ []))

/-- The entries of the inside of a block: it is cut at its commas, each part is trimmed, the empty
ones are dropped, and of the others those that are entries stay. -/
def accepted (inner : Text) : List Text :=
  (((List.splitOn ',' inner).map Text.trim).filter (· ≠ [])).filter fun piece => IsEntry piece

/-- The pairs that the entries of a block set. -/
def pairs (inner : Text) : List (Text × Text) :=
  (accepted inner).map fun piece => (entryKey piece, entryValue piece)

/-- A text loses one pair of matching quote marks if it stands between two, and nothing else. -/
inductive Unquoted : Text → Text → Prop
  | pair (q : Char) (t : Text) : Block.isQuote q = true → Unquoted (q :: (t ++ [q])) t
  | plain (t : Text) : (∀ q u, Block.isQuote q = true → t ≠ q :: (u ++ [q])) → Unquoted t t

theorem isQuotedBy_iff {q : Char} {t : Text} :
    isQuotedBy q t = true ↔ ∃ u, t = q :: (u ++ [q]) := by
  constructor
  · intro h
    simp only [isQuotedBy, Bool.and_eq_true, decide_eq_true_eq, beq_iff_eq] at h
    obtain ⟨⟨hlength, hhead⟩, hlast⟩ := h
    obtain ⟨rest, rfl⟩ := List.head?_eq_some_iff.mp hhead
    -- There is a second character, so the last one is not the first.
    rcases List.eq_nil_or_concat rest with rfl | ⟨u, c, rfl⟩
    · exact absurd hlength (by simp)
    · rw [List.concat_eq_append, ← List.cons_append, List.getLast?_concat] at hlast
      exact ⟨u, by rw [List.concat_eq_append, Option.some.inj hlast]⟩
  · rintro ⟨u, rfl⟩
    have hlast : (q :: (u ++ [q])).getLast? = some q := by
      rw [← List.cons_append, List.getLast?_concat]
    simp [isQuotedBy, hlast]

theorem unquoted_unquote (t : Text) : Unquoted t (unquote t) := by
  have hmarks : ∀ q, Block.isQuote q = true ↔ q = '"' ∨ q = '\x27' := fun q => by
    simp [Block.isQuote]
  unfold unquote
  split
  · rename_i hquoted
    obtain ⟨q, hq, u, rfl⟩ : ∃ q, Block.isQuote q = true ∧ ∃ u, t = q :: (u ++ [q]) := by
      rcases Bool.or_eq_true _ _ ▸ hquoted with h | h
      · exact ⟨'"', rfl, isQuotedBy_iff.mp h⟩
      · exact ⟨'\x27', rfl, isQuotedBy_iff.mp h⟩
    rw [List.tail_cons, List.dropLast_concat]
    exact .pair q u hq
  · rename_i hplain
    refine .plain t fun q u hq heq => hplain ?_
    have hquoted : isQuotedBy q t = true := isQuotedBy_iff.mpr ⟨u, heq⟩
    rcases (hmarks q).mp hq with rfl | rfl
    · rw [hquoted, Bool.true_or]
    · rw [hquoted, Bool.or_true]

theorem keyValue?_eq (piece : Text) :
    keyValue? piece = if IsEntry piece then some (entryKey piece, entryValue piece) else none := by
  unfold keyValue? Text.cutAt
  by_cases hcolon : ':' ∈ piece
  · -- What is dropped up to the colon leaves the colon and the text after it.
    obtain ⟨c, after, hdrop⟩ : ∃ c after, piece.dropWhile (· != ':') = c :: after := by
      refine List.exists_cons_of_ne_nil fun hnil => ?_
      have hpassed := List.dropWhile_eq_nil_iff.mp hnil ':' hcolon
      simp at hpassed
    have hvalue : entryValue piece = unquote (Text.trim after) := by
      rw [entryValue, hdrop, List.tail_cons]
    rw [hdrop, hvalue]
    show (if entryKey piece = [] then none else some (entryKey piece, unquote (Text.trim after))) = _
    by_cases hkey : entryKey piece = []
    · rw [if_pos hkey, if_neg fun hentry : IsEntry piece => hentry.2 hkey]
    · have hentry : IsEntry piece := ⟨hcolon, hkey⟩
      rw [if_neg hkey, if_pos hentry]
  · have hdrop : piece.dropWhile (· != ':') = [] := by
      refine List.dropWhile_eq_nil_iff.mpr fun c hc => ?_
      have hne : c ≠ ':' := fun heq => hcolon (heq ▸ hc)
      simpa using hne
    have hentry : ¬ IsEntry piece := fun h => hcolon h.1
    rw [hdrop, if_neg hentry]

theorem accepted_eq (inner : Text) :
    accepted inner = (pieces inner).filter fun piece => IsEntry piece := rfl

theorem ofBlock_eq (inner : Text) : ofBlock inner = ofList (pairs inner) := by
  have hpairs : (pieces inner).filterMap keyValue? = pairs inner := by
    rw [pairs, accepted_eq, ← List.filterMap_eq_map, List.filterMap_filter]
    refine List.filterMap_congr fun piece _ => ?_
    rw [keyValue?_eq]
    simp only [decide_eq_true_eq, Function.comp_apply]
  rw [ofBlock, hpairs]

theorem rejected_eq (inner : Text) :
    rejected inner = (pieces inner).filter fun piece => ¬ IsEntry piece := by
  unfold rejected
  refine List.filter_congr fun piece _ => ?_
  rw [keyValue?_eq]
  by_cases h : IsEntry piece
  · simp [h]
  · simp [h]

theorem nodup_ofBlock (inner : Text) : (ofBlock inner).keys.Nodup := by
  rw [ofBlock_eq]
  exact nodup_ofList _

theorem keys_ofBlock (inner : Text) :
    (ofBlock inner).keys = ((accepted inner).map entryKey).eraseDups := by
  rw [ofBlock_eq, keys_ofList, pairs, List.map_map]
  rfl

theorem get?_ofBlock (inner key : Text) :
    (ofBlock inner).get? key =
      ((accepted inner).filter fun piece => entryKey piece = key).getLast?.map entryValue := by
  have hpairs : (pairs inner).filter (fun e => e.1 = key) =
      ((accepted inner).filter fun piece => entryKey piece = key).map fun piece =>
        (entryKey piece, entryValue piece) := List.filter_map
  have hget : (ofList (pairs inner)).get? key =
      (((pairs inner).filter fun e => e.1 = key).getLast?.map Prod.snd).or none :=
    get?_insertAll {} (pairs inner) key
  rw [ofBlock_eq, hget, Option.or_none, hpairs, List.getLast?_map, Option.map_map]
  rfl

theorem ofBlock_append (a b : Text) :
    ofBlock (a ++ ',' :: b) = (ofBlock a).insertAll (pairs b) := by
  have hpairs : pairs (a ++ ',' :: b) = pairs a ++ pairs b := by
    rw [pairs, accepted_eq, pieces_append, List.filter_append, List.map_append]
    rfl
  rw [ofBlock_eq, ofBlock_eq, hpairs]
  exact insertAll_append {} (pairs a) (pairs b)

/-- **Every piece of a block is accounted for.** The pieces are what stands between the commas,
trimmed, without the empty ones. Those that are no entries are handed back in order. The keys are
those of the entries in order of first occurrence, each with the value of its last entry; a key and
a value lose at most the pair of quotes around them. And a comma divides a block in two, the second
of which is set after the first. -/
theorem block_accounts (inner a b : Text) :
    rejected inner =
      (((List.splitOn ',' inner).map Text.trim).filter (· ≠ [])).filter
        (fun piece => ¬ IsEntry piece) ∧
    (ofBlock inner).keys = ((accepted inner).map entryKey).eraseDups ∧
    (∀ key, (ofBlock inner).get? key =
      ((accepted inner).filter fun piece => entryKey piece = key).getLast?.map entryValue) ∧
    (∀ t, Unquoted t (unquote t)) ∧
    ofBlock (a ++ ',' :: b) = (ofBlock a).insertAll (pairs b) ∧
    ofBlock (a ++ ',' :: b) = (ofBlock a).insertAll (ofBlock b).entries ∧
    rejected (a ++ ',' :: b) = rejected a ++ rejected b := by
  have hgathered : (ofBlock a).insertAll (ofBlock b).entries = (ofBlock a).insertAll (pairs b) := by
    rw [ofBlock_eq b]
    exact insertAll_entries_ofList (nodup_ofBlock a) (pairs b)
  refine ⟨rejected_eq inner, keys_ofBlock inner, get?_ofBlock inner, unquoted_unquote,
    ofBlock_append a b, ?_, ?_⟩
  · rw [hgathered, ofBlock_append]
  · rw [rejected, pieces_append, List.filter_append]
    rfl

end Attributes

end Offside
