import Offside.Proofs.Highlighting

/-!
# Where highlighting is refused

Highlighting cuts a tag out of the markup first, then its name out of the tag, and then looks ahead
for each `="` and back again for the blank before the key. Whether it is refused can be told in a
simpler way, by a reader who goes through the markup once, from left to right, and only remembers
where it stands (`Highlight.Place`): outside of tags, in the name of a tag, in a value, or among the
keys. There it also remembers the last blank that it has seen since the name or the last value, and
whether the character just read was a `=`. The markup is refused if such a reader ever comes to a
quote that begins a value while the blank that it remembers is one of several bytes
(`Highlight.WideKey`).

**`Highlight.blame_highlight`** says that the two agree, also on which blank is the first. The proof
follows the rounds of the highlighter from the inside out: what the reader sees of a key
(`Highlight.Place.after_key`), of the attributes of a tag, of a tag, and of the markup. A closing
bracket ends a tag from wherever in it the reader stands, even within a value, since the highlighter
cuts the tag there before it looks at anything else.
-/

namespace Offside

namespace Highlight

/-! ### A reader of single characters -/

/-- Where a reader of markup stands. -/
inductive Place where
  /-- Outside of tags. -/
  | outside
  /-- In the name of a tag. -/
  | name
  /-- Among the keys of a tag, with the last blank since the name or the last value; the flag says
  that the last character was a `=`. -/
  | key (blank : Option Char) (assigns : Bool)
  /-- In a value. -/
  | value
  deriving DecidableEq, Repr

namespace Place

/-- Where the reader stands after one more character. -/
def next : Place → Char → Place
  | .outside, c => if c = '<' then .name else .outside
  | .name, c =>
    if c = '>' then .outside
    else if isBlank c then .key (some c) false
    else .name
  | .key blank assigns, c =>
    if c = '>' then .outside
    else if isBlank c then .key (some c) false
    -- A quote anywhere else than after a `=` is a character like others.
    else if c = '"' ∧ assigns = true then .value
    else .key blank (c = '=')
  | .value, c =>
    if c = '>' then .outside
    else if c = '"' then .key none false
    else .value

/-- Where the reader stands after a text. -/
def after (place : Place) (t : Text) : Place :=
  t.foldl next place

/-- The blank of several bytes before a key, if the next character begins the value of that key. -/
def wide? : Place → Char → Option Char
  | .key (some blank) true, c => if c = '"' ∧ blank.utf8Size ≠ 1 then some blank else none
  | _, _ => none

/-- The first blank of several bytes before a key that is given a value. -/
def firstWide (place : Place) : Text → Option Char
  | [] => none
  | c :: t => (place.wide? c).or (firstWide (place.next c) t)

variable {t : Text} {c : Char}

theorem isSome_wide?_iff {place : Place} : (place.wide? c).isSome = true ↔
    ∃ blank, place = key (some blank) true ∧ c = '"' ∧ blank.utf8Size ≠ 1 := by
  unfold wide?
  split
  · rename_i blank
    rw [Option.isSome_ite]
    refine ⟨fun h => ⟨blank, rfl, h⟩, ?_⟩
    rintro ⟨blank', hplace, h⟩
    cases hplace
    exact h
  · rename_i hnot
    refine ⟨fun h => absurd h Bool.false_ne_true, ?_⟩
    rintro ⟨blank, rfl, -⟩
    exact absurd rfl (hnot blank)

@[simp] theorem after_nil (place : Place) : place.after [] = place := rfl

@[simp] theorem after_cons (place : Place) (c : Char) (t : Text) :
    place.after (c :: t) = (place.next c).after t := rfl

theorem after_append (place : Place) (t u : Text) :
    place.after (t ++ u) = (place.after t).after u :=
  List.foldl_append

/-- What comes first in a text is either in its first part or, if there is nothing, in its second,
as the reader finds it after the first. -/
theorem firstWide_append (place : Place) (t u : Text) :
    place.firstWide (t ++ u) = (place.firstWide t).or ((place.after t).firstWide u) := by
  induction t generalizing place with
  | nil => rfl
  | cons c t ih => rw [List.cons_append, firstWide, firstWide, ih, after_cons, Option.or_assoc]

/-- Only a quote begins a value. -/
theorem firstWide_of_quoteless (h : '"' ∉ t) (place : Place) : place.firstWide t = none := by
  induction t generalizing place with
  | nil => rfl
  | cons c t ih =>
    have hc : c ≠ '"' := fun hc => h (hc ▸ List.mem_cons_self)
    have hwide : place.wide? c = none := by
      unfold wide?
      split
      · exact if_neg fun hboth => hc hboth.1
      · rfl
    rw [firstWide, hwide, Option.none_or, ih fun hmem => h (List.mem_cons_of_mem c hmem)]

/-- **A closing bracket ends a tag** from wherever in it the reader stands. -/
theorem after_bracket (place : Place) (t : Text) : place.after (t ++ ['>']) = .outside := by
  -- Only outside is a closing bracket no end, and there nothing has to end.
  rw [after_append]
  cases place.after t <;> rfl

/-- Outside of tags nothing happens up to the next opening bracket. -/
theorem outside_of_free (h : '<' ∉ t) :
    outside.after t = outside ∧ outside.firstWide t = none := by
  induction t with
  | nil => exact ⟨rfl, rfl⟩
  | cons c t ih =>
    have hc : c ≠ '<' := fun hc => h (hc ▸ List.mem_cons_self)
    have hnext : outside.next c = outside := if_neg hc
    rw [after_cons, firstWide, hnext]
    exact ih fun hmem => h (List.mem_cons_of_mem c hmem)

/-- A name goes up to the first blank or bracket, and no further. -/
theorem name_of_free (h : ∀ c ∈ t, endsName c = false) :
    name.after t = name ∧ name.firstWide t = none := by
  induction t with
  | nil => exact ⟨rfl, rfl⟩
  | cons c t ih =>
    have hc := h c List.mem_cons_self
    simp only [endsName, Bool.or_eq_false_iff, decide_eq_false_iff_not] at hc
    have hnext : name.next c = name := by
      rw [next, if_neg hc.2, hc.1]
      rfl
    rw [after_cons, firstWide, hnext]
    exact ih fun d hd => h d (List.mem_cons_of_mem c hd)

/-- A value goes up to the next quote or bracket, and no further. -/
theorem value_of_free (hclose : '>' ∉ t) (hquote : '"' ∉ t) : value.after t = value := by
  induction t with
  | nil => rfl
  | cons c t ih =>
    have hc : c ≠ '>' := fun hc => hclose (hc ▸ List.mem_cons_self)
    have hc' : c ≠ '"' := fun hc => hquote (hc ▸ List.mem_cons_self)
    have hnext : value.next c = value := by
      rw [next, if_neg hc, if_neg hc']
    rw [after_cons, hnext]
    exact ih (fun hmem => hclose (List.mem_cons_of_mem c hmem))
      fun hmem => hquote (List.mem_cons_of_mem c hmem)

/-- The last blank of a text, or the one that was remembered before it. -/
def lastBlank (blank : Option Char) : Text → Option Char
  | [] => blank
  | c :: t => lastBlank (if isBlank c then some c else blank) t

theorem lastBlank_of_free {blank : Option Char} (h : ∀ c ∈ t, isBlank c = false) :
    lastBlank blank t = blank := by
  induction t with
  | nil => rfl
  | cons c t ih =>
    rw [lastBlank, h c List.mem_cons_self]
    exact ih fun d hd => h d (List.mem_cons_of_mem c hd)

theorem lastBlank_append {blank : Option Char} (hc : isBlank c = true)
    (h : ∀ d ∈ t, isBlank d = false) (lead : Text) : lastBlank blank (lead ++ c :: t) = some c := by
  induction lead generalizing blank with
  | nil =>
    rw [List.nil_append, lastBlank, if_pos hc]
    exact lastBlank_of_free h
  | cons d lead ih => exact ih

/-- One more character among the keys, as long as no value begins and the tag does not end. -/
theorem key_step (blank : Option Char) {assigns : Bool} (hc : c ≠ '>')
    (hcut : cutAssignment (c :: t) = none) (hstart : assigns = true → c ≠ '"') :
    (key blank assigns).wide? c = none ∧ cutAssignment t = none ∧
      ∃ assigns', (key blank assigns).next c =
          key (if isBlank c = true then some c else blank) assigns' ∧
        (assigns' = true → t.head? ≠ some '"') := by
  have hquote : ¬ (c = '"' ∧ assigns = true) := fun hboth => hstart hboth.2 hboth.1
  have hwide : (key blank assigns).wide? c = none := by
    unfold wide?
    split
    · rename_i heq
      obtain ⟨rfl, rfl⟩ := Place.key.inj heq
      exact if_neg fun hboth => hquote ⟨hboth.1, rfl⟩
    · rfl
  -- No value begins here, and none at the next character if this one is a `=`.
  obtain ⟨hrest, hequals⟩ : cutAssignment t = none ∧ (c = '=' → t.head? ≠ some '"') := by
    unfold cutAssignment at hcut
    split at hcut
    · cases hcut
    · rename_i hnot
      refine ⟨Option.map_eq_none_iff.mp hcut, ?_⟩
      intro hequals hhead
      obtain ⟨rest, rfl⟩ := List.head?_eq_some_iff.mp hhead
      exact hnot rest hequals rfl
  refine ⟨hwide, hrest, ?_⟩
  by_cases hblank : isBlank c = true
  · refine ⟨false, ?_, fun h => absurd h Bool.false_ne_true⟩
    rw [next, if_neg hc, if_pos hblank, if_pos hblank]
  · refine ⟨c = '=', ?_, fun h => hequals (of_decide_eq_true h)⟩
    rw [next, if_neg hc, if_neg hblank, if_neg hquote, if_neg hblank]

/-- **Among the keys** the reader remembers the last blank. -/
theorem after_key (blank : Option Char) {assigns : Bool} (hclose : '>' ∉ t)
    (hcut : cutAssignment t = none) (hstart : assigns = true → t.head? ≠ some '"') :
    ∃ assigns', (key blank assigns).after t = key (lastBlank blank t) assigns' := by
  induction t generalizing blank assigns with
  | nil => exact ⟨assigns, rfl⟩
  | cons c t ih =>
    have hc : c ≠ '>' := fun hc => hclose (hc ▸ List.mem_cons_self)
    have hc' : assigns = true → c ≠ '"' := fun h hc' => hstart h (congrArg some hc')
    obtain ⟨-, hrest, assigns', hnext, hstart'⟩ := key_step blank hc hcut hc'
    rw [after_cons, hnext]
    exact ih _ (fun hmem => hclose (List.mem_cons_of_mem c hmem)) hrest hstart'

/-- As long as no value begins, no blank is to blame, not even at the end of the tag. -/
theorem firstWide_key (blank : Option Char) {assigns : Bool} (hclose : '>' ∉ t.dropLast)
    (hcut : cutAssignment t = none) (hstart : assigns = true → t.head? ≠ some '"') :
    (key blank assigns).firstWide t = none := by
  induction t generalizing blank assigns with
  | nil => rfl
  | cons c t ih =>
    cases t with
    | nil =>
      by_cases hc : c = '"'
      · subst hc
        -- The quote is the first character, so the flag is not set.
        cases assigns with
        | false => cases blank <;> rfl
        | true => exact absurd rfl (hstart rfl)
      · exact firstWide_of_quoteless (fun hmem => hc (List.mem_singleton.mp hmem).symm) _
    | cons d t =>
      rw [List.dropLast_cons_cons] at hclose
      have hc : c ≠ '>' := fun hc => hclose (hc ▸ List.mem_cons_self)
      have hc' : assigns = true → c ≠ '"' := fun h hc' => hstart h (congrArg some hc')
      obtain ⟨hwide, hrest, assigns', hnext, hstart'⟩ := key_step blank hc hcut hc'
      rw [firstWide, hwide, Option.none_or, hnext]
      exact ih _ (fun hmem => hclose (List.mem_cons_of_mem c hmem)) hrest hstart'

/-- The two characters that begin a value, after a key. -/
theorem firstWide_assignment (blank : Option Char) (assigns : Bool) (rest : Text) :
    (key blank assigns).firstWide ('=' :: '"' :: rest) =
      ((key blank true).wide? '"').or (value.firstWide rest) := by
  have hequals : (key blank assigns).next '=' = key blank true := rfl
  have hquote : (key blank true).next '"' = value := rfl
  have hwide : (key blank assigns).wide? '=' = none :=
    (Option.or_none).symm.trans (firstWide_of_quoteless (by decide) (key blank assigns) :
      (key blank assigns).firstWide ['='] = none)
  rw [firstWide, firstWide, hwide, hequals, hquote, Option.none_or]

/-- A value, from after its opening quote. -/
theorem firstWide_value (h : '>' ∉ t.dropLast) :
    value.firstWide t = (key none false).firstWide (quoted t).2 := by
  obtain ⟨hcut, hquote⟩ | ⟨inner, rest, hcut, hquote, rfl⟩ := Text.cutAt_cases '"' t
  · rw [firstWide_of_quoteless hquote, quoted, hcut]
    rfl
  · have hinner : '>' ∉ inner := fun hmem =>
      h (by rw [List.dropLast_append_cons]; exact List.mem_append_left _ hmem)
    rw [firstWide_append, firstWide_of_quoteless hquote, value_of_free hinner hquote, quoted, hcut]
    rfl

/-- What follows the name of a tag is read as keys at once. -/
theorem firstWide_name (h : t.head?.all endsName = true) :
    name.firstWide t = (key none false).firstWide t := by
  cases t with
  | nil => rfl
  | cons c t =>
    have hends : isBlank c = true ∨ c = '>' := by simpa [endsName] using h
    -- Whether in the name or among the keys, a blank is remembered and a bracket ends the tag.
    have hnext : name.next c = (key none false).next c := by
      by_cases hc : c = '>'
      · rw [next, next, if_pos hc, if_pos hc]
      · have hblank := hends.resolve_right hc
        rw [next, next, if_neg hc, if_neg hc, if_pos hblank, if_pos hblank]
    show (none : Option Char).or ((name.next c).firstWide t) =
      (none : Option Char).or (((key none false).next c).firstWide t)
    rw [hnext]

/-- A blank is to blame at some place of the text. -/
theorem isSome_firstWide_iff (place : Place) (t : Text) :
    (place.firstWide t).isSome = true ↔ ∃ before after blank, t = before ++ '"' :: after ∧
      place.after before = key (some blank) true ∧ blank.utf8Size ≠ 1 := by
  induction t generalizing place with
  | nil =>
    refine ⟨fun h => absurd h Bool.false_ne_true, ?_⟩
    rintro ⟨before, after, -, hnil, -⟩
    exact absurd hnil.symm (List.append_ne_nil_of_right_ne_nil before (List.cons_ne_nil _ _))
  | cons c t ih =>
    -- Either this character is the quote, with nothing before it, or the quote comes later.
    rw [firstWide, Option.isSome_or, Bool.or_eq_true, ih, isSome_wide?_iff]
    constructor
    · rintro (⟨blank, hplace, rfl, hsize⟩ | ⟨before, after, blank, rfl, hafter⟩)
      · exact ⟨[], t, blank, rfl, hplace, hsize⟩
      · exact ⟨c :: before, after, blank, rfl, hafter⟩
    · rintro ⟨before, after, blank, heq, hafter, hsize⟩
      cases before with
      | nil =>
        obtain ⟨rfl, rfl⟩ := List.cons.inj heq
        exact Or.inl ⟨blank, hafter, rfl, hsize⟩
      | cons d before =>
        obtain ⟨rfl, rfl⟩ := List.cons.inj heq
        exact Or.inr ⟨before, after, blank, rfl, hafter, hsize⟩

end Place

/-! ### The reader and the highlighter -/

/-- The blank that an outcome names, if it is a refusal. -/
def blame {α : Type} : Except WideBlank α → Option Char
  | .ok _ => none
  | .error e => some e.blank

/-- Of two outcomes that are both needed the first refusal counts. -/
theorem blame_both {α β γ : Type} (x : Except WideBlank α) (y : Except WideBlank β)
    (f : α → β → γ) :
    blame (do let a ← x; let b ← y; return f a b) = (blame x).or (blame y) := by
  cases x <;> cases y <;> rfl

variable {t : Text}

/-- **A key** is refused if the reader, when it comes to the value, remembers a blank of several
bytes. -/
theorem blame_splitKey (before : Text) :
    blame (splitKey before) = (Place.key (Place.lastBlank none before) true).wide? '"' := by
  obtain ⟨hfree, hsplit⟩ | ⟨lead, blank, key, rfl, hblank, hfree, hsplit⟩ := splitKey_cases before
  · rw [hsplit, Place.lastBlank_of_free hfree]
    rfl
  · rw [hsplit, Place.lastBlank_append hblank hfree]
    by_cases hsize : blank.utf8Size = 1
    · rw [if_pos hsize]
      exact (if_neg fun hboth => hboth.2 hsize).symm
    · rw [if_neg hsize]
      exact (if_pos ⟨rfl, hsize⟩).symm

/-- Before the first `="` there is none. -/
theorem cutAssignment_before {before after : Text} (h : cutAssignment t = some (before, after)) :
    cutAssignment before = none := by
  fun_induction cutAssignment t generalizing before with
  | case1 => cases h
  | case2 rest =>
    obtain ⟨rfl, -⟩ := Prod.mk.inj (Option.some.inj h)
    rfl
  | case3 c rest hnot ih =>
    obtain ⟨parts, hparts, heq⟩ := Option.map_eq_some_iff.mp h
    obtain ⟨rfl, rfl⟩ := Prod.mk.inj heq
    have hrest := eq_of_cutAssignment hparts
    unfold cutAssignment
    -- Were there one at the front, it would have been one of the whole text.
    split
    · rename_i quoted hquoted
      rw [hquoted] at hrest
      exact absurd hrest (hnot _ rfl)
    · rw [ih hparts]
      rfl

/-- A text with a closing bracket at most at its end has none in a first part. -/
theorem bracketless_left {u : Text} (hu : u ≠ []) (h : '>' ∉ (t ++ u).dropLast) : '>' ∉ t := by
  rw [List.dropLast_append_of_ne_nil hu] at h
  exact fun hmem => h (List.mem_append_left _ hmem)

/-- Nor has it another one than the last in a second part. -/
theorem bracketless_right {u : Text} (h : '>' ∉ (t ++ u).dropLast) : '>' ∉ u.dropLast := by
  intro hmem
  have hu : u ≠ [] := by
    rintro rfl
    cases hmem
  rw [List.dropLast_append_of_ne_nil hu] at h
  exact h (List.mem_append_right _ hmem)

/-- **The attributes of a tag.** -/
theorem blame_attributePieces (h : '>' ∉ t.dropLast) :
    blame (attributePieces t) = (Place.key none false).firstWide t := by
  induction t using attributePieces.induct with
  | case1 =>
    rw [attributePieces_nil]
    rfl
  | case2 t hne hcut =>
    have hstart : false = true → t.head? ≠ some '"' := fun hset =>
      absurd hset Bool.false_ne_true
    rw [attributePieces_of_none hne hcut, Place.firstWide_key none h hcut hstart]
    rfl
  | case3 t hne before after hcut ih =>
    -- A round reads the key up to the `=`, the value, and then the later rounds.
    have ht := eq_of_cutAssignment hcut
    rw [ht] at h
    have hbefore : '>' ∉ before := bracketless_left (List.cons_ne_nil _ _) h
    have hquote : '>' ∉ ('"' :: after).dropLast :=
      bracketless_right (t := ['=']) (bracketless_right h)
    have hafter : '>' ∉ after.dropLast := bracketless_right (t := ['"']) hquote
    have hrest : '>' ∉ (quoted after).2.dropLast := by
      rw [← append_quoted] at hquote
      exact bracketless_right hquote
    have hbefore' : '>' ∉ before.dropLast := fun hmem => hbefore (List.mem_of_mem_dropLast hmem)
    have hstart : false = true → before.head? ≠ some '"' := fun hset =>
      absurd hset Bool.false_ne_true
    have hkeys := cutAssignment_before hcut
    obtain ⟨assigns, hplace⟩ := Place.after_key none hbefore hkeys hstart
    calc blame (attributePieces t)
      _ = (blame (splitKey before)).or (blame (attributePieces (quoted after).2)) := by
        rw [attributePieces_of_some hcut]
        exact blame_both _ _ _
      _ = ((Place.key (Place.lastBlank none before) true).wide? '"').or
          (Place.value.firstWide after) := by
        rw [blame_splitKey, ih hrest, Place.firstWide_value hafter]
      _ = (Place.key none false).firstWide t := by
        rw [ht, Place.firstWide_append, hplace, Place.firstWide_assignment,
          Place.firstWide_key none hbefore' hkeys hstart, Option.none_or]

/-- **A tag,** from after its opening bracket. -/
theorem blame_tagPieces (h : '>' ∉ t.dropLast) : blame (tagPieces t) = Place.name.firstWide t := by
  have hname : ∀ c ∈ t.takeWhile fun c => !endsName c, endsName c = false := by
    intro c hc
    simpa using List.mem_takeWhile_imp hc
  -- What is left after the name begins with the character that ended it.
  have hends : ((t.dropWhile fun c => !endsName c).head?.all endsName) = true := by
    have hnot := List.head?_dropWhile_not (fun c => !endsName c) t
    cases hhead : (t.dropWhile fun c => !endsName c).head? with
    | none => rfl
    | some c =>
      rw [hhead] at hnot
      simpa using hnot
  have hrest : '>' ∉ (t.dropWhile fun c => !endsName c).dropLast := by
    rw [← List.takeWhile_append_dropWhile (p := fun c => !endsName c) (l := t)] at h
    exact bracketless_right h
  calc blame (tagPieces t)
    _ = blame (attributePieces (t.dropWhile fun c => !endsName c)) := by
      unfold tagPieces
      cases attributePieces (t.dropWhile fun c => !endsName c) <;> rfl
    _ = Place.name.firstWide (t.dropWhile fun c => !endsName c) := by
      rw [blame_attributePieces hrest, Place.firstWide_name hends]
    _ = Place.name.firstWide ((t.takeWhile fun c => !endsName c) ++
          t.dropWhile fun c => !endsName c) := by
      rw [Place.firstWide_append, (Place.name_of_free hname).1, (Place.name_of_free hname).2,
        Option.none_or]
    _ = Place.name.firstWide t := by rw [List.takeWhile_append_dropWhile]

/-- A tag and what follows it. After its closing bracket the reader is outside again; if there is no
such bracket nothing follows. -/
theorem firstWide_tagText (t : Text) :
    '>' ∉ (tagText t).1.dropLast ∧ Place.name.firstWide t =
      (Place.name.firstWide (tagText t).1).or (Place.outside.firstWide (tagText t).2) := by
  obtain ⟨hcut, hfree⟩ | ⟨tag, after, hcut, hfree, rfl⟩ := Text.cutAt_cases '>' t
  · rw [tagText, hcut]
    exact ⟨fun hmem => hfree (List.mem_of_mem_dropLast hmem), Option.or_none.symm⟩
  · rw [tagText, hcut]
    refine ⟨?_, ?_⟩
    · rw [List.dropLast_concat]
      exact hfree
    · rw [List.append_cons, Place.firstWide_append, Place.after_bracket]

/-- **Markup as a whole.** -/
theorem blame_pieces (t : Text) : blame (pieces t) = Place.outside.firstWide t := by
  induction t using pieces.induct with
  | case1 t hcut =>
    obtain ⟨-, hfree⟩ | ⟨before, after, hsome, -⟩ := Text.cutAt_cases '<' t
    · rw [pieces_of_none hcut, (Place.outside_of_free hfree).2]
      rfl
    · rw [hcut] at hsome
      cases hsome
  | case2 t before after hcut ih =>
    obtain ⟨hnone, -⟩ | ⟨before', after', hsome, hfree, rfl⟩ := Text.cutAt_cases '<' t
    · rw [hcut] at hnone
      cases hnone
    · obtain ⟨rfl, rfl⟩ := Prod.mk.inj (Option.some.inj (hcut.symm.trans hsome))
      -- A round reads up to the bracket outside of tags, then the tag, and then the later rounds.
      obtain ⟨hlast, htag⟩ := firstWide_tagText after
      calc blame (pieces (before ++ '<' :: after))
        _ = (blame (tagPieces (tagText after).1)).or (blame (pieces (tagText after).2)) := by
          rw [pieces_of_some hcut]
          exact blame_both _ _ _
        _ = Place.name.firstWide after := by rw [blame_tagPieces hlast, ih, htag]
        _ = Place.outside.firstWide (before ++ '<' :: after) := by
          rw [Place.firstWide_append, (Place.outside_of_free hfree).1,
            (Place.outside_of_free hfree).2]
          rfl

/-- **The highlighter refuses what the reader finds,** and names the first blank that it finds. -/
theorem blame_highlight (coloured : Bool) (markup : Text) :
    blame (highlight coloured markup) = Place.outside.firstWide markup := by
  rw [← blame_pieces]
  unfold highlight
  cases pieces markup <;> rfl

/-- **A key after a wide blank.** Somewhere in the markup a value begins, and the last blank in its
tag since the name or the value before is one of several bytes. -/
def WideKey (markup : Text) : Prop :=
  ∃ before after blank, markup = before ++ '"' :: after ∧
    Place.outside.after before = .key (some blank) true ∧ blank.utf8Size ≠ 1

theorem wideKey_iff (markup : Text) :
    WideKey markup ↔ (Place.outside.firstWide markup).isSome = true :=
  (Place.isSome_firstWide_iff _ markup).symm

instance : DecidablePred WideKey := fun markup =>
  decidable_of_iff _ (wideKey_iff markup).symm

/-- **Highlighting returns** unless there is a key after a wide blank. -/
theorem exists_highlight_iff (coloured : Bool) (markup : Text) :
    (∃ text, highlight coloured markup = .ok text) ↔ ¬ WideKey markup := by
  rw [wideKey_iff, ← blame_highlight coloured]
  cases highlight coloured markup with
  | ok text => exact ⟨fun _ => Bool.false_ne_true, fun _ => ⟨text, rfl⟩⟩
  | error e =>
    refine ⟨?_, fun h => absurd rfl h⟩
    rintro ⟨text, h⟩
    cases h

end Highlight

end Offside
