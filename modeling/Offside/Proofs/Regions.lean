import Offside.Proofs.Offsets
import Offside.Proofs.Passes

/-!
# The first balanced region

A block is read by a scan that carries three things along: how deep it is, whether it is within
quotes, and the character before. What it finds can be said without a scan. Leave the quoted runs
out of a text (`Block.outside`) and count the braces in the rest. A text is balanced when it has as
many that open as that close (`Block.Balanced`), and the region of an opening brace is the shortest
balanced beginning of the text from that brace on (`Block.IsRegion`).

The proof has one idea, the number of braces that are open after a beginning of the text
(`Block.level`). As long as the scan goes on, no beginning has let the level fall below the depth
at which the scan began; where it stops, the level has just done so (`Block.accounts_close`). From
an opening brace on, this makes the place where the scan stops the first balanced one
(`Block.region_eq_some_iff`), and a scan that never stops has no balanced beginning
(`Block.region_eq_none_iff`).

The search tries the opening braces from left to right, and **`Block.find_first_region`** says what
comes of it: the leftmost region, if there is one. The scan also runs on the bytes of the text
without a fault, as `Block.findByOffset_eq` has shown.
-/

namespace Offside

namespace Block

/-! ### Outside quoted runs -/

/-- The characters of a text that stand in no quoted run. A run begins at a quote mark after a
character that admits one, and ends at the next mark of the same kind, or with the text. -/
def outside (previous : Char) : Text → Text
  | [] => []
  | c :: rest =>
    if isQuote c && admitsQuote previous then outside c (rest.dropWhile (· != c)).tail
    else c :: outside c rest
termination_by t => t.length
decreasing_by
  · exact Nat.lt_succ_of_le
      ((List.tail_sublist _).trans (List.dropWhile_sublist _)).length_le
  · exact Nat.lt_succ_self rest.length

/-- Outside its quoted runs a text has as many opening braces as closing ones. -/
def Balanced (t : Text) : Prop :=
  (outside ' ' t).count '{' = (outside ' ' t).count '}'

/-- The shortest beginning of a text that is balanced and not empty. -/
structure IsRegion (region t : Text) : Prop where
  isPrefix : region <+: t
  ne_nil : region ≠ []
  balanced : Balanced region
  shortest : ∀ u, u <+: t → u ≠ [] → Balanced u → region.length ≤ u.length

/-- Some beginning of a text is balanced and not empty. -/
def Closes (t : Text) : Prop :=
  ∃ u, u <+: t ∧ u ≠ [] ∧ Balanced u

theorem IsRegion.closes {region t : Text} (h : IsRegion region t) : Closes t :=
  ⟨region, h.isPrefix, h.ne_nil, h.balanced⟩

theorem IsRegion.unique {region region' t : Text} (h : IsRegion region t)
    (h' : IsRegion region' t) : region = region' := by
  have hlength : region.length = region'.length :=
    Nat.le_antisymm (h.shortest _ h'.isPrefix h'.ne_nil h'.balanced)
      (h'.shortest _ h.isPrefix h.ne_nil h.balanced)
  exact (List.prefix_of_prefix_length_le h.isPrefix h'.isPrefix hlength.le).eq_of_length hlength

variable {depth : Nat} {previous q c : Char} {body rest inner after t : Text}

theorem outside_plain (h : (isQuote c && admitsQuote previous) = false) :
    outside previous (c :: t) = c :: outside c t := by
  rw [outside, h, if_neg Bool.false_ne_true]

theorem outside_run (h : (isQuote q && admitsQuote previous) = true) (hbody : q ∉ body) :
    outside previous (q :: (body ++ q :: t)) = outside q t := by
  have hrun : ∀ c ∈ body, (c != q) = true := by
    intro c hc
    simpa using fun heq : c = q => hbody (heq ▸ hc)
  have hdrop : (body ++ q :: t).dropWhile (· != q) = q :: t :=
    Text.dropWhile_run hrun (Text.forall_head?_cons (by simp) t)
  rw [outside, if_pos h, hdrop, List.tail_cons]

/-- A run that does not end takes the rest of the text with it. -/
theorem outside_unended (h : (isQuote q && admitsQuote previous) = true) (hbody : q ∉ body) :
    outside previous (q :: body) = [] := by
  have hdrop : body.dropWhile (· != q) = [] := by
    refine List.dropWhile_eq_nil_iff.mpr fun c hc => ?_
    simpa using fun heq : c = q => hbody (heq ▸ hc)
  rw [outside, if_pos h, hdrop, List.tail_nil, outside]

/-! ### The level -/

/-- How many braces are open after a text, quoted runs left out. -/
def level (previous : Char) (t : Text) : ℤ :=
  (outside previous t).count '{' - (outside previous t).count '}'

theorem balanced_iff : Balanced t ↔ level ' ' t = 0 := by
  unfold Balanced level
  omega

/-- What one character outside of quoted runs adds to the level. -/
def weight (c : Char) : ℤ :=
  if c = '{' then 1 else if c = '}' then -1 else 0

@[simp] theorem level_nil (previous : Char) : level previous [] = 0 := by
  rw [level, outside]
  rfl

theorem level_plain (h : (isQuote c && admitsQuote previous) = false) :
    level previous (c :: t) = weight c + level c t := by
  unfold level weight
  rw [outside_plain h, List.count_cons, List.count_cons]
  by_cases hopen : c = '{'
  · have hclose : ¬ c = '}' := fun heq => absurd (hopen.symm.trans heq) (by decide)
    rw [if_pos hopen, if_pos (beq_iff_eq.mpr hopen), if_neg (beq_iff_eq.not.mpr hclose)]
    omega
  · rw [if_neg hopen, if_neg (beq_iff_eq.not.mpr hopen)]
    simp only [beq_iff_eq]
    split <;> omega

theorem level_run (h : (isQuote q && admitsQuote previous) = true) (hbody : q ∉ body) :
    level previous (q :: (body ++ q :: t)) = level q t := by
  rw [level, outside_run h hbody, level]

theorem level_unended (h : (isQuote q && admitsQuote previous) = true) (hbody : q ∉ body) :
    level previous (q :: body) = 0 := by
  rw [level, outside_unended h hbody]
  rfl

/-! ### The scan -/

/-- No beginning of a text takes the level below zero, from a depth on. -/
def Held (depth : Nat) (previous : Char) (t : Text) : Prop :=
  ∀ u, u <+: t → 0 ≤ depth + level previous u

/-- What the outcome of a scan says about the text: either the level holds to the end, or it holds
up to the inside of the region and falls below zero with the brace after it. -/
def Accounts (depth : Nat) (previous : Char) (t : Text) : Option (Text × Text) → Prop
  | none => Held depth previous t
  | some (inner, _) => Held depth previous inner ∧ depth + level previous (inner ++ ['}']) = -1

/-- **A step of the scan.** A part in which the level holds, and which leaves it at the depth from
which the scan goes on, can be put in front. -/
theorem Accounts.prepend (front : Text) {next : Nat} {last : Char}
    {outcome : Option (Text × Text)} (hfront : Held depth previous front)
    (hlevel : ∀ u, depth + level previous (front ++ u) = next + level last u)
    (h : Accounts next last rest outcome) :
    Accounts depth previous (front ++ rest) (outcome.map (prepend front)) := by
  have hheld : ∀ {t : Text}, Held next last t → Held depth previous (front ++ t) := by
    intro t ht u hu
    -- A beginning ends within the part, or it goes on into the text after it.
    rcases List.prefix_or_prefix_of_prefix hu (List.prefix_append front t) with hwithin | hbeyond
    · exact hfront u hwithin
    · obtain ⟨v, rfl⟩ := hbeyond
      rw [hlevel]
      exact ht v ((List.prefix_append_right_inj front).mp hu)
  cases outcome with
  | none => exact hheld h
  | some parts =>
    obtain ⟨inner, after⟩ := parts
    refine ⟨hheld h.1, ?_⟩
    show depth + level previous (front ++ inner ++ ['}']) = -1
    rw [List.append_assoc, hlevel]
    exact h.2

theorem held_nil (depth : Nat) (previous : Char) : Held depth previous [] := by
  intro u hu
  rw [List.prefix_nil.mp hu, level_nil]
  omega

theorem Accounts.plain {next : Nat} {outcome : Option (Text × Text)}
    (hplain : (isQuote c && admitsQuote previous) = false) (hnext : depth + weight c = next)
    (h : Accounts next c rest outcome) :
    Accounts depth previous (c :: rest) (outcome.map fun (i, a) => (c :: i, a)) := by
  refine Accounts.prepend [c] (fun u hu => ?_) (fun u => ?_) h
  · rcases List.prefix_cons_iff.mp hu with rfl | ⟨v, rfl, hv⟩
    · exact held_nil depth previous [] List.prefix_rfl
    · rw [List.prefix_nil.mp hv, level_plain hplain, level_nil]
      omega
  · rw [List.singleton_append, level_plain hplain]
    omega

theorem close_unended (hbody : q ∉ body) : close depth (some q) previous body = none := by
  induction body generalizing previous with
  | nil => rfl
  | cons c body ih =>
    have hc : c ≠ q := fun hc => hbody (hc ▸ List.mem_cons_self)
    rw [close]
    dsimp only
    rw [if_neg hc, ih fun hmem => hbody (List.mem_cons_of_mem _ hmem)]
    rfl

/-- In a quoted run, ended or not, the level stays where it was. -/
theorem held_run (h : (isQuote q && admitsQuote previous) = true) (hbody : q ∉ body) :
    Held depth previous (q :: (body ++ [q])) := by
  intro u hu
  have hlevel : level previous u = 0 := by
    rcases List.prefix_cons_iff.mp hu with rfl | ⟨v, rfl, hv⟩
    · exact level_nil previous
    · rcases List.prefix_concat_iff.mp hv with rfl | hv
      · rw [level_run h hbody, level_nil]
      · exact level_unended h fun hmem => hbody (hv.subset hmem)
  rw [hlevel]
  omega

/-- **What the scan has seen,** when it stops and when it does not. -/
theorem accounts_close (depth : Nat) (previous : Char) (t : Text) :
    Accounts depth previous t (close depth none previous t) := by
  -- The induction is on the length, since a quoted run is passed over in one step.
  induction hlength : t.length using Nat.strong_induction_on generalizing depth previous t with
  | _ n ih =>
  subst hlength
  cases t with
  | nil => exact held_nil depth previous
  | cons c rest =>
    have hshorter : rest.length < (c :: rest).length := Nat.lt_succ_self _
    unfold close
    dsimp only
    by_cases hquote : (isQuote c && admitsQuote previous) = true
    · rw [if_pos hquote]
      by_cases hend : c ∈ rest
      · obtain ⟨body, later, rfl, hbody⟩ := List.eq_append_cons_of_mem hend
        have hlater : later.length < (c :: (body ++ c :: later)).length := by
          simp only [List.length_cons, List.length_append]
          omega
        have hrun := Accounts.prepend (c :: (body ++ [c])) (held_run hquote hbody)
          (fun u => by rw [List.cons_append, List.append_assoc, List.singleton_append,
            level_run hquote hbody]) (ih _ hlater depth c later rfl)
        rw [close_run_eq hbody, Option.map_map]
        rw [List.cons_append, List.append_assoc, List.singleton_append] at hrun
        exact hrun
      · rw [close_unended hend]
        exact fun u hu => held_run hquote hend u (hu.trans (List.prefix_append (c :: rest) [c]))
    · have hplain : (isQuote c && admitsQuote previous) = false := Bool.eq_false_iff.mpr hquote
      rw [if_neg hquote]
      by_cases hopen : c = '{'
      · rw [if_pos hopen]
        refine Accounts.plain hplain ?_ (ih _ hshorter (depth + 1) c rest rfl)
        rw [weight, if_pos hopen]
        push_cast
        rfl
      · rw [if_neg hopen]
        by_cases hclose : c = '}'
        · subst hclose
          rw [if_pos rfl]
          cases depth with
          | zero =>
            -- The level falls below zero here, and the inside of the region is empty.
            refine ⟨held_nil 0 previous, ?_⟩
            rw [List.nil_append, level_plain hplain, level_nil]
            rfl
          | succ outer =>
            refine Accounts.plain hplain ?_ (ih _ hshorter outer '}' rest rfl)
            simp [weight]
        · rw [if_neg hclose]
          refine Accounts.plain hplain ?_ (ih _ hshorter depth c rest rfl)
          rw [weight, if_neg hopen, if_neg hclose, add_zero]

/-! ### The region of a brace -/

theorem level_brace (t : Text) : level ' ' ('{' :: t) = 1 + level '{' t :=
  level_plain (by decide)

theorem not_balanced_of_held (h : Held 0 '{' t) {u : Text} (hu : u <+: '{' :: t)
    (hne : u ≠ []) : ¬ Balanced u := by
  obtain ⟨v, rfl, hv⟩ := (List.prefix_cons_iff.mp hu).resolve_left hne
  have hv := h v hv
  rw [balanced_iff, level_brace]
  push_cast at hv
  omega

theorem isRegion_of_region (h : region rest = some (inner, after)) :
    IsRegion ('{' :: (inner ++ ['}'])) ('{' :: rest) := by
  have hscan := accounts_close 0 '{' rest
  rw [show close 0 none '{' rest = some (inner, after) from h] at hscan
  obtain ⟨hheld, hfall⟩ := hscan
  have htext : '{' :: rest = '{' :: (inner ++ ['}']) ++ after := by
    rw [eq_of_close h]
    simp
  refine ⟨⟨after, htext.symm⟩, List.cons_ne_nil _ _, ?_, fun u hu hne hbalanced => ?_⟩
  · rw [balanced_iff, level_brace]
    push_cast at hfall
    omega
  · -- A shorter beginning ends before the brace, where the level still holds.
    by_contra hshorter
    have hwithin : u <+: '{' :: inner ++ ['}'] :=
      List.prefix_of_prefix_length_le hu ⟨after, htext.symm⟩ (Nat.lt_of_not_le hshorter).le
    rcases List.prefix_concat_iff.mp hwithin with hwhole | hbefore
    · exact hshorter (hwhole ▸ le_rfl)
    · exact not_balanced_of_held hheld hbefore hne hbalanced

theorem not_closes_of_region (h : region rest = none) : ¬ Closes ('{' :: rest) := by
  have hscan := accounts_close 0 '{' rest
  rw [show close 0 none '{' rest = none from h] at hscan
  rintro ⟨u, hu, hne, hbalanced⟩
  exact not_balanced_of_held hscan hu hne hbalanced

/-- **The scan from an opening brace never closes** exactly if no beginning is balanced. -/
theorem region_eq_none_iff : region rest = none ↔ ¬ Closes ('{' :: rest) := by
  refine ⟨not_closes_of_region, fun hnot => ?_⟩
  cases hregion : region rest with
  | none => rfl
  | some parts => exact absurd (isRegion_of_region hregion).closes hnot

/-- **The scan from an opening brace closes** at the end of the shortest balanced beginning. -/
theorem region_eq_some_iff : region rest = some (inner, after) ↔
    rest = inner ++ '}' :: after ∧ IsRegion ('{' :: (inner ++ ['}'])) ('{' :: rest) := by
  refine ⟨fun h => ⟨eq_of_close h, isRegion_of_region h⟩, ?_⟩
  rintro ⟨htext, hregion⟩
  cases hscan : region rest with
  | none => exact absurd hregion.closes (not_closes_of_region hscan)
  | some parts =>
    obtain ⟨inner', after'⟩ := parts
    -- Both are the shortest balanced beginning, so they are the same.
    have hsame := hregion.unique (isRegion_of_region hscan)
    have hinner : inner = inner' := List.append_cancel_right (List.cons.inj hsame).2
    subst hinner
    have hafter : inner ++ '}' :: after = inner ++ '}' :: after' :=
      htext.symm.trans (eq_of_close hscan)
    rw [(List.cons.inj (List.append_cancel_left hafter)).2]

/-! ### The search -/

/-- No opening brace closes among those that stand to the left of a place. -/
def NoneBefore (place : Nat) (t : Text) : Prop :=
  ∀ before rest, t = before ++ '{' :: rest → before.length < place → ¬ Closes ('{' :: rest)

theorem noneBefore_cons {place : Nat} (hc : c = '{' → ¬ Closes (c :: t))
    (h : NoneBefore place t) : NoneBefore (place + 1) (c :: t) := by
  intro before rest htext hplace
  cases before with
  | nil =>
    obtain ⟨rfl, rfl⟩ := List.cons.inj htext
    exact hc rfl
  | cons d before =>
    obtain ⟨-, htext⟩ := List.cons.inj htext
    exact h before rest htext (Nat.lt_of_succ_lt_succ hplace)

/-- What the outcome of the search says about the text. -/
def Finds (t : Text) : Block → Prop
  | .absent => '{' ∉ t
  | .unclosed => '{' ∈ t ∧ NoneBefore t.length t
  | .closed before inner after => t = before ++ '{' :: (inner ++ '}' :: after) ∧
      IsRegion ('{' :: (inner ++ ['}'])) ('{' :: (inner ++ '}' :: after)) ∧
        NoneBefore before.length t

/-- A brace that does not close leaves the search to the rest of the text. -/
theorem Finds.shift {block : Block} (hc : c = '{' → ¬ Closes (c :: t)) (h : Finds t block) :
    Finds (c :: t) (shift c block) := by
  cases block with
  | absent =>
    by_cases hopen : c = '{'
    · -- It was the only brace.
      rw [Block.shift, if_pos hopen]
      refine ⟨hopen ▸ List.mem_cons_self, noneBefore_cons hc ?_⟩
      intro before rest htext
      exact absurd (htext ▸ List.mem_append_right before List.mem_cons_self) h
    · rw [Block.shift, if_neg hopen]
      intro hmem
      rcases List.mem_cons.mp hmem with heq | hmem
      · exact hopen heq.symm
      · exact h hmem
  | unclosed => exact ⟨List.mem_cons_of_mem c h.1, noneBefore_cons hc h.2⟩
  | closed before inner after =>
    obtain ⟨htext, hregion, hnone⟩ := h
    exact ⟨by rw [htext, List.cons_append], hregion, noneBefore_cons hc hnone⟩

theorem finds_find (t : Text) : Finds t (find t) := by
  induction t with
  | nil => exact List.not_mem_nil
  | cons c rest ih =>
    rw [find]
    by_cases hopen : c = '{'
    · -- The brace is tried first, and only if it never closes does the search go on behind it.
      subst hopen
      rw [if_pos rfl]
      cases hregion : region rest with
      | none => exact ih.shift fun _ => not_closes_of_region hregion
      | some parts =>
        obtain ⟨inner, after⟩ := parts
        have htext : rest = inner ++ '}' :: after := eq_of_close hregion
        refine ⟨by rw [htext, List.nil_append], htext ▸ isRegion_of_region hregion, ?_⟩
        exact fun _ _ _ hplace => absurd hplace (Nat.not_lt_zero _)
    · rw [if_neg hopen]
      exact ih.shift fun hc => absurd hc hopen

/-- Of two outcomes that say something true, both are the same. -/
theorem Finds.unique {block block' : Block} (h : Finds t block) (h' : Finds t block') :
    block = block' := by
  -- A region that was found has an opening brace, and that brace closes.
  have hleft : ∀ {before inner after place}, Finds t (.closed before inner after) →
      NoneBefore place t → place ≤ before.length := by
    rintro before inner after place ⟨htext, hregion, -⟩ hnone
    by_contra hplace
    exact hnone before _ htext (by omega) hregion.closes
  have hbrace : ∀ {before inner after}, Finds t (.closed before inner after) →
      '{' ∈ t ∧ before.length < t.length := by
    rintro before inner after ⟨htext, -, -⟩
    rw [htext]
    refine ⟨List.mem_append_right before List.mem_cons_self, ?_⟩
    simp only [List.length_append, List.length_cons]
    omega
  cases block with
  | absent =>
    cases block' with
    | absent => rfl
    | unclosed => exact absurd h'.1 h
    | closed before inner after => exact absurd (hbrace h').1 h
  | unclosed =>
    cases block' with
    | absent => exact absurd h.1 h'
    | unclosed => rfl
    | closed before inner after => exact absurd (hleft h' h.2) (Nat.not_le.mpr (hbrace h').2)
  | closed before inner after =>
    cases block' with
    | absent => exact absurd (hbrace h).1 h'
    | unclosed => exact absurd (hleft h h'.2) (Nat.not_le.mpr (hbrace h).2)
    | closed before' inner' after' =>
      -- Neither region can begin to the left of the other, and from one brace there is one region.
      have hlength : before.length = before'.length :=
        Nat.le_antisymm (hleft h' h.2.2) (hleft h h'.2.2)
      obtain ⟨rfl, hrest⟩ := List.append_inj (h.1.symm.trans h'.1) hlength
      have hregion := region_eq_some_iff.mpr ⟨rfl, h.2.1⟩
      have hregion' := region_eq_some_iff.mpr ⟨rfl, h'.2.1⟩
      rw [(List.cons.inj hrest).2, hregion'] at hregion
      obtain ⟨rfl, rfl⟩ := Prod.mk.inj (Option.some.inj hregion)
      rfl

theorem find_eq_iff {block : Block} : find t = block ↔ Finds t block :=
  ⟨fun h => h ▸ finds_find t, fun h => (finds_find t).unique h⟩

/-- **The block of a text is its first balanced region.** It is absent exactly if the text has no
opening brace, and unclosed exactly if it has some and none of them closes. Else it is the region
of the leftmost brace that does: the shortest balanced beginning of the text from there on. The
scan of one brace stops there too; and a search by byte offsets comes to the same, without a fault. -/
theorem find_first_region (t : Text) :
    (find t = .absent ↔ '{' ∉ t) ∧
    (find t = .unclosed ↔
      '{' ∈ t ∧ ∀ before rest, t = before ++ '{' :: rest → ¬ Closes ('{' :: rest)) ∧
    (∀ before inner after, find t = .closed before inner after ↔
      t = before ++ '{' :: (inner ++ '}' :: after) ∧
      IsRegion ('{' :: (inner ++ ['}'])) ('{' :: (inner ++ '}' :: after)) ∧
      ∀ before' rest, t = before' ++ '{' :: rest → before'.length < before.length →
        ¬ Closes ('{' :: rest)) ∧
    (∀ rest, region rest = none ↔ ¬ Closes ('{' :: rest)) ∧
    findByOffset t = .ok (find t) := by
  refine ⟨find_eq_iff, find_eq_iff.trans ?_, fun _ _ _ => find_eq_iff,
    fun _ => region_eq_none_iff, findByOffset_eq t⟩
  -- Every brace of the text stands to the left of its end.
  refine and_congr_right fun _ => ⟨fun h before rest htext => h before rest htext ?_,
    fun h before rest htext _ => h before rest htext⟩
  rw [htext, List.length_append, List.length_cons]
  omega

end Block

end Offside
