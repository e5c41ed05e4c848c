import Offside.Proofs.DocumentHistory

/-!
# What layout does to lines

Laid out by depth or at the widths of the source, a line of markup comes out behind some spaces
and otherwise as it was, and the output is these lines put together (`Renderer.exists_output`).
How many spaces is another matter; what is said here holds of every layout that succeeds.

A rendering cannot fail for its nesting, so it is the layout of the history of the document and
nothing else (`Renderer.render_eq_ok_iff`).
-/

namespace Offside

open Outline

/-- A computation that may fail succeeds in two steps exactly when each step does. -/
theorem bind_eq_ok_iff {ε α β : Type} {x : Except ε α} {f : α → Except ε β} {b : β} :
    (x >>= f) = .ok b ↔ ∃ a, x = .ok a ∧ f a = .ok b := by
  cases x with
  | error e => exact ⟨fun h => (nomatch h), fun ⟨_, h, _⟩ => (nomatch h)⟩
  | ok a =>
    constructor
    · intro h
      exact ⟨a, rfl, h⟩
    · rintro ⟨a', ha, h⟩
      obtain rfl := Except.ok.inj ha
      exact h

/-- A computation over a list succeeds exactly when it does for every member. -/
theorem mapM_eq_ok_iff {ε α β : Type} {f : α → Except ε β} {xs : List α} {ys : List β} :
    xs.mapM f = .ok ys ↔ List.Forall₂ (fun x y => f x = .ok y) xs ys := by
  induction xs generalizing ys with
  | nil =>
    rw [List.mapM_nil, List.forall₂_nil_left_iff]
    exact ⟨fun h => (Except.ok.inj h).symm, fun h => h ▸ rfl⟩
  | cons x xs ih =>
    rw [List.mapM_cons, bind_eq_ok_iff, List.forall₂_cons_left_iff]
    constructor
    · rintro ⟨y, hy, h⟩
      obtain ⟨rest, hrest, h⟩ := bind_eq_ok_iff.mp h
      exact ⟨y, rest, hy, ih.mp hrest, (Except.ok.inj h).symm⟩
    · rintro ⟨y, rest, hy, hrest, rfl⟩
      exact ⟨y, hy, bind_eq_ok_iff.mpr ⟨rest, ih.mpr hrest, rfl⟩⟩

/-- A text behind some spaces. -/
def Indented (text line : Text) : Prop :=
  ∃ width, line = List.replicate width ' ' ++ text

theorem indented_of_pad {width : Nat} {text line : Text} (h : pad width text = .ok line) :
    Indented text line :=
  ⟨width, ((pad_eq_ok_iff width text line).mp h).2⟩

/-- Padding all of a list, where it succeeds, puts the spaces that were asked for. -/
theorem eq_map_of_mapM_pad {α : Type} {width : α → Nat} {text : α → Text} {xs : List α}
    {placed : List Text} (h : xs.mapM (fun x => pad (width x) (text x)) = .ok placed) :
    placed = xs.map fun x => List.replicate (width x) ' ' ++ text x := by
  have hall := mapM_eq_ok_iff.mp h
  clear h
  induction hall with
  | nil => rfl
  | cons hfirst _ ih => rw [List.map_cons, ih, ((pad_eq_ok_iff _ _ _).mp hfirst).2]

namespace Layout

variable {unit : Nat} {table : VoidTable}

theorem Shape.depthAt_le (s : Shape) (depth : Nat) : s.depthAt depth ≤ depth := by
  cases s with
  | closing => exact Nat.sub_le depth 1
  | opening => exact Nat.le_refl depth
  | level => exact Nat.le_refl depth

theorem Shape.depthAfter_le (s : Shape) (depth : Nat) :
    s.depthAfter depth ≤ depth + if s = .opening then 1 else 0 := by
  cases s with
  | closing => exact Nat.sub_le depth 1
  | opening => exact Nat.le_refl (depth + 1)
  | level => exact Nat.le_refl depth

theorem placeFrom_cons_blank {line : Text} (h : Text.trim line = []) (depth : Nat)
    (rest : List Text) :
    placeFrom unit table depth (line :: rest) =
      (do let placed ← placeFrom unit table depth rest
          return [] :: placed) := by
  rw [placeFrom, h]

/-- Every other line is placed at the depth that its shape gives, and the rest after it. -/
theorem placeFrom_cons {line : Text} (h : Text.trim line ≠ []) (depth : Nat) (rest : List Text) :
    placeFrom unit table depth (line :: rest) =
      (do let first ← pad ((shape table (Text.trim line)).depthAt depth * unit) (Text.trim line)
          let placed ← placeFrom unit table
            ((shape table (Text.trim line)).depthAfter depth) rest
          return first :: placed) := by
  rw [placeFrom]
  split
  · contradiction
  · rfl

/-- Layout by depth trims lines and puts spaces before them. -/
theorem indented_of_placeFrom {depth : Nat} {lines placed : List Text}
    (h : placeFrom unit table depth lines = .ok placed) :
    List.Forall₂ (fun line p => Indented (Text.trim line) p) lines placed := by
  induction lines generalizing depth placed with
  | nil =>
    obtain rfl := Except.ok.inj h
    exact .nil
  | cons line rest ih =>
    by_cases hblank : Text.trim line = []
    · rw [placeFrom_cons_blank hblank] at h
      obtain ⟨others, hothers, h⟩ := bind_eq_ok_iff.mp h
      obtain rfl := Except.ok.inj h
      exact .cons ⟨0, by rw [hblank]; rfl⟩ (ih hothers)
    · rw [placeFrom_cons hblank] at h
      obtain ⟨first, hfirst, h⟩ := bind_eq_ok_iff.mp h
      obtain ⟨others, hothers, h⟩ := bind_eq_ok_iff.mp h
      obtain rfl := Except.ok.inj h
      exact .cons (indented_of_pad hfirst) (ih hothers)

end Layout

namespace Renderer

variable {r : Renderer}

/-- **A rendering is the layout of its history.** No nesting error comes between. -/
theorem render_eq (source : Text) :
    r.render source =
      ((r.layOut ((r.history (significant source)).map Entry.line)).mapError .tooWide).map
        fun output => ⟨output, (significant source).flatMap r.diagnose⟩ := by
  unfold render
  dsimp only
  rw [placedLines_eq_history]
  show (r.layOut ((r.history (significant source)).map Entry.line)).mapError
    RenderError.tooWide >>= (fun output => pure (Rendered.mk output _)) = _
  cases r.layOut ((r.history (significant source)).map Entry.line) with
  | error e => rfl
  | ok output => rfl

/-- A rendering succeeds exactly when the layout of the history does. -/
theorem render_eq_ok_iff {source : Text} {rendered : Rendered} :
    r.render source = .ok rendered ↔
      r.layOut ((r.history (significant source)).map Entry.line) = .ok rendered.output ∧
        rendered.diagnostics = (significant source).flatMap r.diagnose := by
  rw [render_eq]
  cases r.layOut ((r.history (significant source)).map Entry.line) with
  | error e => exact ⟨fun h => (nomatch h), fun h => (nomatch h.1)⟩
  | ok output =>
    obtain ⟨output', diagnostics'⟩ := rendered
    constructor
    · intro h
      obtain ⟨rfl, rfl⟩ := Rendered.mk.inj (Except.ok.inj h)
      exact ⟨rfl, rfl⟩
    · rintro ⟨houtput, hdiagnostics⟩
      obtain rfl := Except.ok.inj houtput
      obtain rfl : diagnostics' = _ := hdiagnostics
      rfl

/-- **What an output is.** The lines of the history, each behind some spaces, put together. -/
theorem exists_output {source : Text} {rendered : Rendered}
    (h : r.render source = .ok rendered) :
    ∃ placed, rendered.output = Text.unlines placed ∧
      List.Forall₂ (fun e p => Indented e.line.text p) (r.history (significant source)) placed := by
  have hlayout := (render_eq_ok_iff.mp h).1
  unfold layOut at hlayout
  -- By depth or at the widths of the source.
  split at hlayout
  · obtain ⟨placed, hplaced, hout⟩ := bind_eq_ok_iff.mp hlayout
    refine ⟨placed, (Except.ok.inj hout).symm, ?_⟩
    have hindented := Layout.indented_of_placeFrom hplaced
    rw [List.map_map, List.forall₂_map_left_iff] at hindented
    -- The lines of a history are trimmed as they stand.
    have htrimmed : ∀ e ∈ r.history (significant source), Text.trim e.line.text = e.line.text :=
      fun e he => (text_of_mem_history he).1.trim_eq
    refine ((List.forall₂_and_left _ _).mpr ⟨htrimmed, hindented⟩).imp ?_
    rintro e p ⟨htrim, hp⟩
    change Indented (Text.trim e.line.text) p at hp
    rwa [htrim] at hp
  · obtain ⟨placed, hplaced, hout⟩ := bind_eq_ok_iff.mp hlayout
    refine ⟨placed, (Except.ok.inj hout).symm, ?_⟩
    have hpadded := mapM_eq_ok_iff.mp hplaced
    rw [List.forall₂_map_left_iff] at hpadded
    exact hpadded.imp fun e p hp => indented_of_pad hp

end Renderer

end Offside
