import Offside.Cli.Session
import Offside.Proofs.Text

/-!
# What a command writes

An action ends in one of two ways and writes lines on the way to either. `Action.Says P Q x` speaks
of both: however the action ends, what it has added to the output is made of lines with `P`, and if
it comes to its end, then with a value that has `Q`. It carries over from the steps of a command to
the command (`Says.bind`) and to a command that goes through a list (`Says.forM`, `Says.mapM`).
-/

namespace Offside

namespace Cli

namespace Action

variable {α β γ : Type} {P : Text → Prop} {Q : α → Prop} {R : β → Prop}

/-- A step that ends early ends the action, with what was written so far. -/
theorem run_bind (x : Action α) (f : α → Action β) (s : Session) :
    (x >>= f).run.run s =
      match x.run.run s with
      | (.ok a, s') => (f a).run.run s'
      | (.error halt, s') => (.error halt, s') := by
  rw [ExceptT.run_bind, StateT.run_bind]
  rcases x.run.run s with ⟨halt | a, s'⟩
  · rfl
  · rfl

/-- All lines that the action adds to the output have `P`, and what it returns has `Q`. -/
structure Says (P : Text → Prop) (Q : α → Prop) (x : Action α) : Prop where
  /-- Nothing that was written is taken back, and all that comes to it has `P`. -/
  output : ∀ s, ∃ written,
    (x.run.run s).2.output.toList = s.output.toList ++ written ∧ ∀ line ∈ written, P line
  /-- What is returned has `Q`. -/
  value : ∀ s a, (x.run.run s).1 = .ok a → Q a

namespace Says

/-- An action that leaves the output alone says nothing. -/
theorem of_silent {x : Action α} (hsilent : ∀ s, (x.run.run s).2.output = s.output)
    (hvalue : ∀ s a, (x.run.run s).1 = .ok a → Q a) : Says P Q x where
  output := by
    intro s
    refine ⟨[], ?_, fun line hline => absurd hline List.not_mem_nil⟩
    rw [hsilent s, List.append_nil]
  value := hvalue

protected theorem pure {a : α} (h : Q a) : Says P Q (pure a : Action α) := by
  refine of_silent (fun _ => rfl) ?_
  intro _ b hb
  obtain rfl := Except.ok.inj hb
  exact h

protected theorem throw (halt : Halt) : Says P Q (throw halt : Action α) :=
  of_silent (fun _ => rfl) fun _ _ hb => (nomatch hb)

protected theorem get : Says P (fun _ => True) (get : Action Session) :=
  of_silent (fun _ => rfl) fun _ _ _ => trivial

protected theorem modify {f : Session → Session} (h : ∀ s, (f s).output = s.output) :
    Says P (fun _ => True) (modify f : Action PUnit) :=
  of_silent h fun _ _ _ => trivial

protected theorem say {line : Text} (h : P line) : Says P (fun _ => True) (say line) where
  output := by
    intro s
    refine ⟨[line], Array.toList_push, ?_⟩
    exact List.forall_mem_singleton.mpr h
  value := fun _ _ _ => trivial

protected theorem bind {x : Action α} {f : α → Action β} (hx : Says P Q x)
    (hf : ∀ a, Q a → Says P R (f a)) : Says P R (x >>= f) where
  output := by
    intro s
    obtain ⟨first, hfirst, hlines⟩ := hx.output s
    have hvalue := hx.value s
    rw [run_bind]
    rcases hrun : x.run.run s with ⟨halt | a, s'⟩
    · rw [hrun] at hfirst
      exact ⟨first, hfirst, hlines⟩
    · -- The second step goes on from the output of the first.
      rw [hrun] at hfirst hvalue
      obtain ⟨second, hsecond, hlines'⟩ := (hf a (hvalue a rfl)).output s'
      refine ⟨first ++ second, ?_, List.forall_mem_append.mpr ⟨hlines, hlines'⟩⟩
      rw [← List.append_assoc, ← hfirst]
      exact hsecond
  value := by
    intro s b hb
    have hvalue := hx.value s
    rw [run_bind] at hb
    rcases hrun : x.run.run s with ⟨halt | a, s'⟩
    · rw [hrun] at hb
      exact nomatch hb
    · rw [hrun] at hb hvalue
      exact (hf a (hvalue a rfl)).value s' b hb

protected theorem forM {f : γ → Action Unit} {xs : List γ}
    (h : ∀ x ∈ xs, Says P (fun _ => True) (f x)) : Says P (fun _ => True) (xs.forM f) := by
  induction xs with
  | nil => exact Says.pure trivial
  | cons x xs ih =>
    refine (h x List.mem_cons_self).bind ?_
    intro _ _
    exact ih fun y hy => h y (List.mem_cons_of_mem x hy)

protected theorem mapM {f : γ → Action α} {xs : List γ} (h : ∀ x ∈ xs, Says P Q (f x)) :
    Says P (fun ys => ∀ y ∈ ys, Q y) (xs.mapM f) := by
  induction xs with
  | nil => exact Says.pure fun y hy => absurd hy List.not_mem_nil
  | cons x xs ih =>
    rw [List.mapM_cons]
    refine (h x List.mem_cons_self).bind ?_
    intro y hy
    refine (ih fun z hz => h z (List.mem_cons_of_mem x hz)).bind ?_
    intro ys hys
    exact Says.pure (List.forall_mem_cons.mpr ⟨hy, hys⟩)

/-- Reading says nothing, whether or not there is a text to be had. -/
theorem readSource (name : Text) : Says P (fun _ => True) (readSource name) := by
  unfold Action.readSource
  split
  · -- What is left of the standard input is taken, and then decoded.
    refine Says.get.bind ?_
    intro s _
    dsimp only
    refine Says.bind (Says.modify fun _ => rfl) ?_
    intro _ _
    split
    · exact Says.pure trivial
    · exact Says.throw _
  · refine Says.get.bind ?_
    intro s _
    split
    · exact Says.pure trivial
    · exact Says.throw _

end Says

end Action

end Cli

end Offside
