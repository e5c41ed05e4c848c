import Offside.Text.Basic

/-!
# Padding

Lines of markup are indented with spaces. The width of a padding is limited; a wider one is
refused rather than cut.
-/

namespace Offside

/-- A refusal to indent: the width that was asked for is above the limit. -/
structure TooWide where
  width : Nat
  deriving DecidableEq, Repr

/-- The widest padding there is. -/
def widthLimit : Nat :=
  65535

/-- A text behind a number of spaces. -/
def pad (width : Nat) (text : Text) : Except TooWide Text :=
  if width ≤ widthLimit then .ok (List.replicate width ' ' ++ text) else .error ⟨width⟩

/-- Padding is refused exactly above the limit. -/
theorem pad_eq_error_iff (width : Nat) (text : Text) :
    pad width text = .error ⟨width⟩ ↔ widthLimit < width := by
  unfold pad
  split <;> simp <;> omega

/-- Padding puts spaces in front, up to the limit. -/
theorem pad_eq_ok_iff (width : Nat) (text padded : Text) :
    pad width text = .ok padded ↔
      width ≤ widthLimit ∧ padded = List.replicate width ' ' ++ text := by
  unfold pad
  split
  · rename_i h
    exact ⟨fun e => ⟨h, (Except.ok.inj e).symm⟩, fun e => by rw [e.2]⟩
  · rename_i h
    exact ⟨fun e => (nomatch e), fun e => absurd e.1 h⟩

end Offside
