import Offside.Markup.Fragment
import Offside.Markup.Padding

/-!
# Outlines

Indentation decides nesting. An outline holds the containers that are open, each with the width
it was opened at, and the lines written so far. A line of some width first closes every container
of that width or more, so that a line at the width of an open container is its sibling and never
its child. A container may only be opened deeper than the innermost one that is open; asking for
anything else is a nesting error and changes nothing.
-/

namespace Offside

/-- A container that is open, and the width it was opened at. Only elements that stay open are
containers, so none is void. -/
structure Frame where
  name : Text
  indent : Nat
  isVoid : Bool := false
  deriving DecidableEq, Repr

/-- A line of markup with the width it is to be placed at. -/
structure PlacedLine where
  indent : Nat
  text : Text
  deriving DecidableEq, Repr

/-- The line behind as many spaces as its width. -/
def PlacedLine.padded (l : PlacedLine) : Except TooWide Text :=
  pad l.indent l.text

/-- The line that closes a container, at the width of the line that opened it. -/
def Frame.closing (f : Frame) : PlacedLine :=
  ⟨f.indent, Fragment.closingTag f.name⟩

/-- A container that would be opened no deeper than the innermost open one. -/
structure NestingError where
  /-- The number of the source line, counted from one. -/
  line : Nat
  /-- The container to open and its width. -/
  inner : Frame
  /-- The innermost open container. -/
  outer : Frame
  deriving DecidableEq, Repr

/-- How a nesting error is reported. -/
def NestingError.message (e : NestingError) : Text :=
  "Structural error at line ".toList ++ Text.decimal e.line ++ ": cannot open <".toList ++
    e.inner.name ++ "> at width ".toList ++ Text.decimal e.inner.indent ++ " inside <".toList ++
      e.outer.name ++ "> at width ".toList ++ Text.decimal e.outer.indent

/-- The open containers, innermost first, and the lines written so far. -/
structure Outline where
  frames : List Frame := []
  lines : Array PlacedLine := #[]
  deriving DecidableEq, Repr

namespace Outline

/-- Closes every container of at least this width, innermost first. -/
def closeUntil (o : Outline) (indent : Nat) : Outline :=
  { frames := o.frames.dropWhile (indent ≤ ·.indent)
    lines := o.lines ++ (o.frames.takeWhile (indent ≤ ·.indent)).map Frame.closing }

/-- Writes a line that opens nothing. -/
def addText (o : Outline) (indent : Nat) (text : Text) : Outline :=
  { o with lines := o.lines.push ⟨indent, text⟩ }

/-- Writes a start tag and opens its container. -/
def openFrame (o : Outline) (frame : Frame) (html : Text) : Outline :=
  { frames := frame :: o.frames, lines := o.lines.push ⟨frame.indent, html⟩ }

/-- Writes the fragment of a source line, in place. A fragment that opens a container is checked
against the innermost open one before anything is written. -/
def write (line indent : Nat) (fragment : Fragment) : EStateM NestingError Outline Unit := do
  let frame : Frame := { name := fragment.name, indent }
  if fragment.kind = .opening then
    -- Widths grow inwards, so the innermost container is the only one to compare with.
    if let some outer := (← get).frames.head? then
      if indent ≤ outer.indent then
        throw { line, inner := frame, outer }
  modify (·.addText indent fragment.html)
  if fragment.kind = .opening then
    modify fun o => { o with frames := frame :: o.frames }

/-- The outline with the fragment of a source line written. -/
def add (o : Outline) (line indent : Nat) (fragment : Fragment) : Except NestingError Outline :=
  match (write line indent fragment).run o with
  | .ok _ o' => .ok o'
  | .error error _ => .error error

/-- Closes every container and gives the lines written. -/
def finish (o : Outline) : List PlacedLine :=
  o.lines.toList ++ o.frames.map Frame.closing

/-- Closing by width takes the innermost containers as long as they are wide enough. -/
theorem frames_closeUntil (o : Outline) (indent : Nat) :
    (o.closeUntil indent).frames = o.frames.dropWhile (indent ≤ ·.indent) :=
  rfl

/-- What is left open after closing by width, if anything, is narrower at the top. -/
theorem indent_lt_of_closeUntil (o : Outline) (indent : Nat) :
    ∀ top ∈ (o.closeUntil indent).frames.head?, top.indent < indent := by
  intro top htop
  rw [frames_closeUntil] at htop
  have hnot := List.head?_dropWhile_not (fun f : Frame => decide (indent ≤ f.indent)) o.frames
  rw [htop] at hnot
  simpa using hnot

/-- **What writing a fragment can do.** One that opens nothing is written. One that opens a
container goes on top of the stack if it is wider than the top. Otherwise it is refused, and the
outline is as it was. -/
theorem write_cases (o : Outline) (line indent : Nat) (fragment : Fragment) :
    (fragment.kind ≠ .opening ∧
      (write line indent fragment).run o = .ok () (o.addText indent fragment.html)) ∨
    (fragment.kind = .opening ∧ (∀ top ∈ o.frames.head?, top.indent < indent) ∧
      (write line indent fragment).run o =
        .ok () (o.openFrame { name := fragment.name, indent } fragment.html)) ∨
    (fragment.kind = .opening ∧ ∃ top ∈ o.frames.head?, indent ≤ top.indent ∧
      (write line indent fragment).run o =
        .error { line, inner := { name := fragment.name, indent }, outer := top } o) := by
  by_cases hkind : fragment.kind = .opening
  · -- Only a fragment that opens a container looks at the stack, and only at its top.
    cases hhead : o.frames.head? with
    | none =>
      refine Or.inr (Or.inl ⟨hkind, fun top htop => (nomatch htop), ?_⟩)
      simp [write, hkind, hhead, addText, openFrame]
    | some top =>
      by_cases hle : indent ≤ top.indent
      · refine Or.inr (Or.inr ⟨hkind, top, rfl, hle, ?_⟩)
        simp [write, hkind, hhead, hle]
      · refine Or.inr (Or.inl ⟨hkind, ?_, ?_⟩)
        · intro top' htop'
          obtain rfl : top = top' := Option.some.inj htop'
          exact Nat.lt_of_not_le hle
        · simp [write, hkind, hhead, hle, addText, openFrame]
  · refine Or.inl ⟨hkind, ?_⟩
    simp [write, hkind]

/-- What adding a fragment can do, in the same three cases. -/
theorem add_cases (o : Outline) (line indent : Nat) (fragment : Fragment) :
    (fragment.kind ≠ .opening ∧
      o.add line indent fragment = .ok (o.addText indent fragment.html)) ∨
    (fragment.kind = .opening ∧ (∀ top ∈ o.frames.head?, top.indent < indent) ∧
      o.add line indent fragment =
        .ok (o.openFrame { name := fragment.name, indent } fragment.html)) ∨
    (fragment.kind = .opening ∧ ∃ top ∈ o.frames.head?, indent ≤ top.indent ∧
      o.add line indent fragment =
        .error { line, inner := { name := fragment.name, indent }, outer := top }) := by
  rcases write_cases o line indent fragment with
    ⟨hkind, hwrite⟩ | ⟨hkind, hwide, hwrite⟩ | ⟨hkind, top, htop, hle, hwrite⟩
  · exact Or.inl ⟨hkind, by rw [add, hwrite]⟩
  · exact Or.inr (Or.inl ⟨hkind, hwide, by rw [add, hwrite]⟩)
  · exact Or.inr (Or.inr ⟨hkind, top, htop, hle, by rw [add, hwrite]⟩)

/-- Writing in place leaves what adding gives, and the outline itself if the fragment is refused. -/
theorem run_write (o : Outline) (line indent : Nat) (fragment : Fragment) :
    (write line indent fragment).run o =
      match o.add line indent fragment with
      | .ok o' => .ok () o'
      | .error error => .error error o := by
  rcases write_cases o line indent fragment with
    ⟨-, hwrite⟩ | ⟨-, -, hwrite⟩ | ⟨-, top, -, -, hwrite⟩
  all_goals rw [add, hwrite]

/-- **After closing by width every fragment fits.** -/
theorem add_closeUntil (o : Outline) (line indent : Nat) (fragment : Fragment) :
    (o.closeUntil indent).add line indent fragment =
      .ok (if fragment.kind = .opening then
        (o.closeUntil indent).openFrame { name := fragment.name, indent } fragment.html
      else (o.closeUntil indent).addText indent fragment.html) := by
  rcases add_cases (o.closeUntil indent) line indent fragment with
    ⟨hkind, hadd⟩ | ⟨hkind, -, hadd⟩ | ⟨-, top, htop, hle, -⟩
  · rw [hadd, if_neg hkind]
  · rw [hadd, if_pos hkind]
  · exact absurd (indent_lt_of_closeUntil o indent top htop) (Nat.not_lt_of_le hle)

end Outline

end Offside
