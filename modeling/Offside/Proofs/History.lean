import Mathlib
import Offside.Proofs.LineStep

/-!
# Histories of an outline

An outline keeps the lines it has written and forgets why. Its *history* remembers: for each line
whether it opened a container, closed one or did neither, and which containers stood open around
it. The calls that build an outline may come in any order and with any widths. An addition may
come without the closing that should precede it, and one that is refused is passed over.

What a written line can do to the open containers is said once, by `Outline.Entry.Moves`, and
every call moves along such entries (`Outline.Call.path_entries`, `Outline.Call.lines_run`). Two
results follow for all runs:

* `Outline.WellFormed`, the invariant: widths grow strictly inwards and no container is void.
  Looking at the top of the stack is then as good as looking at all of it, and closing by width
  takes exactly the containers that are wide enough (`Outline.WellFormed.frames_closeUntil`).
* `Outline.wellNested_history`: the history of a run, closed at its end, is a well-nested word.
  The proof carries what the open containers still owe (`Outline.Owes`), for a run that starts
  with any of them open.

The lines of a document are such calls (`Renderer.calls`), so both hold of every document.
-/

namespace Offside

/-! ### Well-nested words -/

/-- **Well-nested words.** A word of leaves and of pairs, each pair enclosing a well-nested word.
Every letter that is no leaf belongs to exactly one pair. -/
inductive WellNested {α : Type} (leaf : α → Prop) (pair : α → α → Prop) : List α → Prop
  | nil : WellNested leaf pair []
  | leaf {a : α} {word : List α} :
      leaf a → WellNested leaf pair word → WellNested leaf pair (a :: word)
  | pair {a b : α} {inner word : List α} :
      pair a b → WellNested leaf pair inner → WellNested leaf pair word →
        WellNested leaf pair (a :: (inner ++ b :: word))

namespace WellNested

variable {α : Type} {leaf : α → Prop} {pair : α → α → Prop}

theorem append {u v : List α} (hu : WellNested leaf pair u) (hv : WellNested leaf pair v) :
    WellNested leaf pair (u ++ v) := by
  induction hu with
  | nil => exact hv
  | leaf ha _ ih => exact .leaf ha ih
  | pair hab hinner _ _ ih =>
    rw [List.cons_append, List.append_assoc, List.cons_append]
    exact .pair hab hinner ih

/-- A translation of letters to words keeps a word well-nested if it turns leaves into well-nested
words and the two ends of a pair into brackets. -/
theorem flatMap {β : Type} {leaf' : β → Prop} {pair' : β → β → Prop} {f : α → List β}
    {word : List α} (h : WellNested leaf pair word)
    (hleaf : ∀ a ∈ word, leaf a → WellNested leaf' pair' (f a))
    (hpair : ∀ a ∈ word, ∀ b ∈ word, pair a b → ∀ inner, WellNested leaf' pair' inner →
      WellNested leaf' pair' (f a ++ (inner ++ f b))) :
    WellNested leaf' pair' (word.flatMap f) := by
  induction h with
  | nil => exact .nil
  | @leaf a word ha _ ih =>
    rw [List.flatMap_cons]
    refine (hleaf a List.mem_cons_self ha).append (ih ?_ ?_)
    · exact fun c hc => hleaf c (List.mem_cons_of_mem _ hc)
    · exact fun c hc d hd => hpair c (List.mem_cons_of_mem _ hc) d (List.mem_cons_of_mem _ hd)
  | @pair a b inner word hab _ _ ihinner ihword =>
    -- The letters of both parts are letters of the whole.
    have hin : ∀ c ∈ inner, c ∈ a :: (inner ++ b :: word) := fun c hc =>
      List.mem_cons_of_mem _ (List.mem_append_left _ hc)
    have hout : ∀ c ∈ word, c ∈ a :: (inner ++ b :: word) := fun c hc =>
      List.mem_cons_of_mem _ (List.mem_append_right _ (List.mem_cons_of_mem _ hc))
    have hb : b ∈ a :: (inner ++ b :: word) :=
      List.mem_cons_of_mem _ (List.mem_append_right _ List.mem_cons_self)
    have hinner' : WellNested leaf' pair' (inner.flatMap f) :=
      ihinner (fun c hc => hleaf c (hin c hc))
        (fun c hc d hd => hpair c (hin c hc) d (hin d hd))
    have hword' : WellNested leaf' pair' (word.flatMap f) :=
      ihword (fun c hc => hleaf c (hout c hc))
        (fun c hc d hd => hpair c (hout c hc) d (hout d hd))
    have hends := hpair a List.mem_cons_self b hb hab (inner.flatMap f) hinner'
    rw [List.flatMap_cons, List.flatMap_append, List.flatMap_cons, ← List.append_assoc,
      ← List.append_assoc, List.append_assoc (f a)]
    exact hends.append hword'

/-- Every letter of a well-nested word is a leaf or belongs to a pair. -/
theorem leaf_or_pair {word : List α} (h : WellNested leaf pair word) :
    ∀ a ∈ word, leaf a ∨ (∃ b, pair a b) ∨ ∃ b, pair b a := by
  induction h with
  | nil => exact fun a ha => absurd ha List.not_mem_nil
  | leaf hleaf _ ih =>
    intro a ha
    rcases List.mem_cons.mp ha with rfl | ha
    · exact Or.inl hleaf
    · exact ih a ha
  | @pair first last inner word hpair _ _ ihinner ihword =>
    intro a ha
    rcases List.mem_cons.mp ha with rfl | ha
    · exact Or.inr (Or.inl ⟨last, hpair⟩)
    · rcases List.mem_append.mp ha with ha | ha
      · exact ihinner a ha
      · rcases List.mem_cons.mp ha with rfl | ha
        · exact Or.inr (Or.inr ⟨first, hpair⟩)
        · exact ihword a ha

end WellNested

namespace Outline

/-! ### Calls -/

/-- A call on an outline. -/
inductive Call where
  | closeUntil (indent : Nat)
  | add (line indent : Nat) (fragment : Fragment)
  | addText (indent : Nat) (text : Text)
  deriving DecidableEq, Repr

/-- The outline that a call leaves. A fragment may be refused, and then it is the outline that
comes with the refusal. -/
def Call.run (o : Outline) : Call → Outline
  | .closeUntil indent => o.closeUntil indent
  | .add line indent fragment =>
    match (write line indent fragment).run o with
    | .ok _ o' => o'
    | .error _ o' => o'
  | .addText indent text => o.addText indent text

def run (o : Outline) (calls : List Call) : Outline :=
  calls.foldl Call.run o

@[simp] theorem run_nil (o : Outline) : o.run [] = o := rfl

@[simp] theorem run_cons (o : Outline) (call : Call) (rest : List Call) :
    o.run (call :: rest) = (call.run o).run rest := rfl

theorem add_eq_error_iff (o : Outline) (line indent : Nat) (fragment : Fragment)
    (error : NestingError) :
    o.add line indent fragment = .error error ↔
      fragment.kind = .opening ∧ ∃ top ∈ o.frames.head?, indent ≤ top.indent ∧
        error = { line, inner := { name := fragment.name, indent }, outer := top } := by
  rcases add_cases o line indent fragment with
    ⟨hkind, hadd⟩ | ⟨hkind, hwide, hadd⟩ | ⟨hkind, top, htop, hle, hadd⟩
  · rw [hadd]
    exact ⟨fun h => (nomatch h), fun h => absurd h.1 hkind⟩
  · rw [hadd]
    refine ⟨fun h => (nomatch h), ?_⟩
    rintro ⟨-, top, htop, hle, -⟩
    exact absurd (hwide top htop) (Nat.not_lt_of_le hle)
  · rw [hadd]
    constructor
    · intro h
      exact ⟨hkind, top, htop, hle, (Except.error.inj h).symm⟩
    · rintro ⟨-, top', htop', -, rfl⟩
      obtain rfl : top = top' := Option.some.inj (htop.symm.trans htop')
      rfl

/-! ### The invariant -/

/-- The invariant of the open containers, innermost first. -/
structure WellFormed (o : Outline) : Prop where
  /-- Widths grow strictly inwards. -/
  ordered : o.frames.Pairwise fun inner outer => outer.indent < inner.indent
  /-- A void element is never open. -/
  none_void : ∀ f ∈ o.frames, f.isVoid = false

/-- In an ordered stack the containers below a width lie under all the others, so going down from
the top to the first that is narrow enough passes all that are not. -/
theorem dropWhile_eq_filter {frames : List Frame}
    (h : frames.Pairwise fun inner outer => outer.indent < inner.indent) (indent : Nat) :
    frames.dropWhile (indent ≤ ·.indent) = frames.filter (·.indent < indent) := by
  induction frames with
  | nil => rfl
  | cons top rest ih =>
    obtain ⟨htop, hrest⟩ := List.pairwise_cons.mp h
    by_cases hle : indent ≤ top.indent
    · rw [List.dropWhile_cons_of_pos (by simpa using hle),
        List.filter_cons_of_neg (by simpa using hle)]
      exact ih hrest
    · -- The top stays, and everything under it is narrower still.
      have hall : ∀ f ∈ top :: rest, f.indent < indent := by
        intro f hf
        rcases List.mem_cons.mp hf with rfl | hf
        · omega
        · have := htop f hf
          omega
      rw [List.dropWhile_cons_of_neg (by simpa using hle),
        List.filter_eq_self.mpr (fun f hf => decide_eq_true (hall f hf))]

namespace WellFormed

variable {o : Outline}

theorem initial : WellFormed {} where
  ordered := List.Pairwise.nil
  none_void := fun _ h => absurd h List.not_mem_nil

/-- Closing by width takes exactly the containers that are at least that wide, wherever in the
stack they are. -/
theorem frames_closeUntil (h : o.WellFormed) (indent : Nat) :
    (o.closeUntil indent).frames = o.frames.filter (·.indent < indent) := by
  rw [Outline.frames_closeUntil]
  exact dropWhile_eq_filter h.ordered indent

theorem closeUntil (h : o.WellFormed) (indent : Nat) : (o.closeUntil indent).WellFormed where
  ordered := h.ordered.sublist (List.dropWhile_sublist _)
  none_void f hf := h.none_void f ((List.dropWhile_sublist _).subset hf)

theorem addText (h : o.WellFormed) (indent : Nat) (text : Text) :
    (o.addText indent text).WellFormed :=
  ⟨h.ordered, h.none_void⟩

/-- A container wider than the top is wider than everything under it. -/
theorem openFrame (h : o.WellFormed) {frame : Frame} (hvoid : frame.isVoid = false)
    (hwide : ∀ top ∈ o.frames.head?, top.indent < frame.indent) (html : Text) :
    (o.openFrame frame html).WellFormed where
  ordered := by
    -- Only the top was compared; what lies under it is narrower by the invariant.
    refine List.pairwise_cons.mpr ⟨fun f hf => ?_, h.ordered⟩
    cases hframes : o.frames with
    | nil => rw [hframes] at hf; exact absurd hf List.not_mem_nil
    | cons top rest =>
      rw [hframes] at hf
      have htop : top.indent < frame.indent := hwide top (by rw [hframes]; rfl)
      rcases List.mem_cons.mp hf with rfl | hf
      · exact htop
      · have hunder := (List.pairwise_cons.mp (hframes ▸ h.ordered)).1 f hf
        exact Nat.lt_trans hunder htop
  none_void f hf := by
    rcases List.mem_cons.mp hf with rfl | hf
    · exact hvoid
    · exact h.none_void f hf

/-- **Invariant preservation.** Every call keeps the invariant, refused or not. -/
theorem call (h : o.WellFormed) (call : Call) : (call.run o).WellFormed := by
  cases call with
  | closeUntil indent => exact h.closeUntil indent
  | addText indent text => exact h.addText indent text
  | add line indent fragment =>
    rw [Call.run]
    -- A refused fragment leaves the outline as it was, and the invariant with it.
    rcases write_cases o line indent fragment with
      ⟨-, hwrite⟩ | ⟨-, hwide, hwrite⟩ | ⟨-, top, -, -, hwrite⟩
    · rw [hwrite]
      exact h.addText indent fragment.html
    · rw [hwrite]
      exact h.openFrame rfl hwide fragment.html
    · rw [hwrite]
      exact h

theorem run (h : o.WellFormed) (calls : List Call) : (o.run calls).WellFormed := by
  induction calls generalizing o with
  | nil => exact h
  | cons call rest ih => exact ih (h.call call)

end WellFormed

/-! ### Entries -/

/-- What a written line did to the open containers. -/
inductive Mark where
  | opens (frame : Frame)
  | stands
  | closes
  deriving DecidableEq, Repr

/-- A written line with what it did and the containers that stood open around it, innermost first.
The two tags of a container stand outside it. -/
structure Entry where
  mark : Mark
  line : PlacedLine
  around : List Frame
  deriving DecidableEq, Repr

/-- What closing by width writes: the closing tag of each container it takes, innermost first. -/
def closings (indent : Nat) : List Frame → List Entry
  | [] => []
  | top :: rest =>
    if indent ≤ top.indent then ⟨.closes, top.closing, rest⟩ :: closings indent rest else []

/-- What a call writes on an outline; a fragment that is refused writes nothing. -/
def Call.entries (o : Outline) : Call → List Entry
  | .closeUntil indent => closings indent o.frames
  | .add line indent fragment =>
    match (write line indent fragment).run o with
    | .ok _ _ =>
      if fragment.kind = .opening then
        [⟨.opens { name := fragment.name, indent }, ⟨indent, fragment.html⟩, o.frames⟩]
      else
        [⟨.stands, ⟨indent, fragment.html⟩, o.frames⟩]
    | .error _ _ => []
  | .addText indent text => [⟨.stands, ⟨indent, text⟩, o.frames⟩]

/-- **The history of a run.** What calls in a row write, and after them the closing of all that is
still open. -/
def history (o : Outline) : List Call → List Entry
  | [] => closings 0 o.frames
  | call :: rest => call.entries o ++ history (call.run o) rest

/-! ### What an entry can do -/

/-- **The step relation on open containers.** The mark, the line and the surroundings of an entry
all follow from what it does to them. -/
inductive Entry.Moves : List Frame → Entry → List Frame → Prop
  | opens (frames : List Frame) (frame : Frame) (html : Text) :
      Moves frames ⟨.opens frame, ⟨frame.indent, html⟩, frames⟩ (frame :: frames)
  | stands (frames : List Frame) (line : PlacedLine) :
      Moves frames ⟨.stands, line, frames⟩ frames
  | closes (frame : Frame) (frames : List Frame) :
      Moves (frame :: frames) ⟨.closes, frame.closing, frames⟩ frames

/-- Entries in a row, from the containers open before the first to those open after the last. -/
inductive Path : List Frame → List Entry → List Frame → Prop
  | nil (frames : List Frame) : Path frames [] frames
  | cons {before between after : List Frame} {entry : Entry} {rest : List Entry} :
      Entry.Moves before entry between → Path between rest after →
        Path before (entry :: rest) after

theorem Path.single {before after : List Frame} {entry : Entry}
    (h : Entry.Moves before entry after) : Path before [entry] after :=
  .cons h (.nil after)

theorem Path.append {before between after : List Frame} {us vs : List Entry}
    (hu : Path before us between) (hv : Path between vs after) : Path before (us ++ vs) after := by
  induction hu with
  | nil _ => exact hv
  | cons hmove _ ih => exact .cons hmove (ih hv)

theorem path_closings (indent : Nat) (frames : List Frame) :
    Path frames (closings indent frames) (frames.dropWhile (indent ≤ ·.indent)) := by
  induction frames with
  | nil => exact .nil []
  | cons top rest ih =>
    rw [closings]
    by_cases hle : indent ≤ top.indent
    · rw [if_pos hle, List.dropWhile_cons_of_pos (by simpa using hle)]
      exact .cons (.closes top rest) ih
    · rw [if_neg hle, List.dropWhile_cons_of_neg (by simpa using hle)]
      exact .nil _

theorem map_line_closings (indent : Nat) (frames : List Frame) :
    (closings indent frames).map Entry.line =
      (frames.takeWhile (indent ≤ ·.indent)).map Frame.closing := by
  induction frames with
  | nil => rfl
  | cons top rest ih =>
    rw [closings]
    by_cases hle : indent ≤ top.indent
    · rw [if_pos hle, List.takeWhile_cons_of_pos (by simpa using hle), List.map_cons, ih,
        List.map_cons]
    · rw [if_neg hle, List.takeWhile_cons_of_neg (by simpa using hle), List.map_nil, List.map_nil]

/-- A call moves the open containers along what it writes. -/
theorem Call.path_entries (o : Outline) (call : Call) :
    Path o.frames (call.entries o) (call.run o).frames := by
  cases call with
  | closeUntil indent => exact path_closings indent o.frames
  | addText indent text => exact .single (.stands o.frames ⟨indent, text⟩)
  | add line indent fragment =>
    rw [Call.entries, Call.run]
    rcases write_cases o line indent fragment with
      ⟨hkind, hwrite⟩ | ⟨hkind, -, hwrite⟩ | ⟨-, top, -, -, hwrite⟩
    · rw [hwrite]
      -- Whether the fragment opens a container decides what kind of entry it is.
      simp only [if_neg hkind]
      exact .single (.stands o.frames ⟨indent, fragment.html⟩)
    · rw [hwrite]
      simp only [if_pos hkind]
      exact .single (.opens o.frames { name := fragment.name, indent } fragment.html)
    · rw [hwrite]
      exact .nil o.frames

/-- A call writes the lines of its entries behind those that are there. -/
theorem Call.lines_run (o : Outline) (call : Call) :
    (call.run o).lines.toList = o.lines.toList ++ (call.entries o).map Entry.line := by
  cases call with
  | closeUntil indent =>
    rw [Call.entries, map_line_closings, Call.run, Outline.closeUntil, Array.toList_appendList]
  | addText indent text => simp [Call.entries, Call.run, Outline.addText]
  | add line indent fragment =>
    rw [Call.entries, Call.run]
    rcases write_cases o line indent fragment with
      ⟨hkind, hwrite⟩ | ⟨hkind, -, hwrite⟩ | ⟨-, top, -, -, hwrite⟩
    · rw [hwrite]
      simp [hkind, Outline.addText]
    · rw [hwrite]
      simp [hkind, openFrame]
    · rw [hwrite]
      simp

/-- **The history closes everything.** -/
theorem path_history (o : Outline) (calls : List Call) : Path o.frames (o.history calls) [] := by
  induction calls generalizing o with
  | nil =>
    -- Closing at width zero takes every container.
    have h := path_closings 0 o.frames
    rwa [List.dropWhile_eq_nil_iff.mpr (fun f _ => decide_eq_true (Nat.zero_le f.indent))] at h
  | cons call rest ih => exact (call.path_entries o).append (ih (call.run o))

/-- **The history is what is written.** -/
theorem finish_run (o : Outline) (calls : List Call) :
    (o.run calls).finish = o.lines.toList ++ (o.history calls).map Entry.line := by
  induction calls generalizing o with
  | nil =>
    have hall : o.frames.takeWhile (0 ≤ ·.indent) = o.frames :=
      List.takeWhile_eq_self_iff.mpr fun f _ => decide_eq_true (Nat.zero_le f.indent)
    rw [run_nil, finish, history, map_line_closings, hall]
  | cons call rest ih =>
    rw [run_cons, ih, Call.lines_run, history, List.map_append, List.append_assoc]

/-! ### Histories are well-nested -/

/-- The entry is neither of the tags of a container. -/
def Entry.IsLeaf (e : Entry) : Prop :=
  e.mark = .stands

/-- The two entries are the tags of one container: the second closes it with its name between `</`
and `>`, at the width of the first, and the same containers stand around both. -/
def Entry.Encloses (a b : Entry) : Prop :=
  ∃ frame, a.mark = .opens frame ∧ a.line.indent = frame.indent ∧
    b.mark = .closes ∧ b.line = ⟨frame.indent, ['<', '/'] ++ frame.name ++ ['>']⟩ ∧
      b.around = a.around

/-- A history in which each container is closed by its own tag. -/
abbrev Nested (entries : List Entry) : Prop :=
  WellNested Entry.IsLeaf Entry.Encloses entries

/-- What is still to come while containers are open, innermost first: each is closed after a
well-nested word, and after the last there is one more. -/
def Owes : List Frame → List Entry → Prop
  | [], entries => Nested entries
  | top :: rest, entries =>
    ∃ inner after, entries = inner ++ ⟨.closes, top.closing, rest⟩ :: after ∧
      Nested inner ∧ Owes rest after

/-- What keeps a well-nested word well-nested when it is put in front may come before the rest of
a history. -/
theorem Owes.prepend {frames : List Frame} {entries word : List Entry}
    (hword : ∀ w, Nested w → Nested (word ++ w)) (h : Owes frames entries) :
    Owes frames (word ++ entries) := by
  cases frames with
  | nil => exact hword entries h
  | cons top rest =>
    -- The word comes to lie inside the innermost container.
    obtain ⟨inner, after, rfl, hinner, hafter⟩ := h
    exact ⟨word ++ inner, after, (List.append_assoc ..).symm, hword inner hinner, hafter⟩

/-- A path that ends with nothing open pays what its start owes. -/
theorem Path.owes {frames : List Frame} {entries : List Entry}
    (h : Path frames entries []) : Owes frames entries := by
  -- By induction from the end of the path, where nothing is open and nothing is owed.
  generalize hend : ([] : List Frame) = last at h
  induction h with
  | nil frames => subst hend; exact WellNested.nil
  | @cons before between after entry rest hmove _ ih =>
    have hrest := ih hend
    cases hmove with
    | opens _ frame html =>
      -- The new container is owed first. With its own closing tag it becomes one pair.
      obtain ⟨inner, later, rfl, hinner, hlater⟩ := hrest
      have hpair : ∀ w, Nested w →
          Nested ((⟨.opens frame, ⟨frame.indent, html⟩, before⟩ :: inner ++
            [⟨.closes, frame.closing, before⟩]) ++ w) := by
        intro w hw
        rw [List.append_assoc, List.singleton_append, List.cons_append]
        exact .pair ⟨frame, rfl, rfl, rfl, rfl, rfl⟩ hinner hw
      have howes := hlater.prepend hpair
      rwa [List.append_assoc, List.singleton_append, List.cons_append] at howes
    | stands _ line =>
      have hleaf : ∀ w, Nested w → Nested ([⟨.stands, line, before⟩] ++ w) :=
        fun w hw => .leaf rfl hw
      exact hrest.prepend hleaf
    | closes frame _ =>
      -- The innermost container is paid at once, with nothing before its closing tag.
      exact ⟨[], rest, rfl, .nil, hrest⟩

/-- **Histories are well-nested.** -/
theorem wellNested_history (calls : List Call) : Nested (history {} calls) :=
  (path_history {} calls).owes

/-- **The invariant over arbitrary runs.** After any calls on a new outline, in any order:

* the widths of the open containers grow strictly inwards and none of them is void;
* closing by width removes exactly the containers of at least that width and keeps the rest in
  order;
* adding is refused exactly for a container that is no wider than the innermost open one, the
  refusal names the two, and writing in place then leaves the outline as it was;
* the lines of the finished outline are those of its history, and that is a well-nested word of
  lines that stand alone and of pairs, in which each closing line has the name and the width of
  the opening line it matches. -/
theorem wellFormed_run_and_nested (calls : List Call) :
    (run {} calls).WellFormed ∧
    (∀ indent, ((run {} calls).closeUntil indent).frames =
      (run {} calls).frames.filter (·.indent < indent)) ∧
    (∀ line indent fragment error,
      (run {} calls).add line indent fragment = .error error ↔
        fragment.kind = .opening ∧ ∃ top ∈ (run {} calls).frames.head?, indent ≤ top.indent ∧
          error = { line, inner := { name := fragment.name, indent }, outer := top }) ∧
    (∀ line indent fragment error, (run {} calls).add line indent fragment = .error error →
      (write line indent fragment).run (run {} calls) = .error error (run {} calls) ∧
        (Call.add line indent fragment).run (run {} calls) = run {} calls) ∧
    (run {} calls).finish = (history {} calls).map Entry.line ∧
    WellNested Entry.IsLeaf Entry.Encloses (history {} calls) := by
  have hwf : (run {} calls).WellFormed := WellFormed.initial.run calls
  refine ⟨hwf, hwf.frames_closeUntil, add_eq_error_iff _, ?_, finish_run {} calls,
    wellNested_history calls⟩
  intro line indent fragment error herror
  have hwrite : (write line indent fragment).run (run {} calls) = .error error (run {} calls) := by
    rw [run_write, herror]
  exact ⟨hwrite, by rw [Call.run, hwrite]⟩

end Outline

end Offside
