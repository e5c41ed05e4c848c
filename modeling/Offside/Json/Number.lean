import Offside.Text.Basic

/-!
# JSON numbers

A number is kept as it is written. Two questions are asked of it: which natural number it is, if
it is one that fits a 64-bit word, and whether it can be held as a 64-bit floating point number.

A number is held in two steps. Its digits are read into a word, as many of them as fit, and the
place of the last one is a power of ten. The word and the power are each rounded to the nearest
floating point number, and the result is their product, rounded again. So near the end of the
range the outcome depends on how a number is written and not on its value alone: rounding the two
factors may carry a product out of the range, and also keep it in.
-/

namespace Offside

/-- A number as it is written: sign, digits before the point, digits after it, and the exponent
with its sign. -/
structure Json.Number where
  negative : Bool := false
  whole : Text
  fraction : Text := []
  exponent : Option (Bool × Text) := none
  deriving DecidableEq, Repr

namespace Json.Number

/-- The numeral of a natural number. -/
def ofNat (n : Nat) : Number :=
  { whole := Text.decimal n }

/-- The natural number below `2 ^ 64` that is written without sign, point and exponent. -/
def word? (n : Number) : Option Nat :=
  let value := Nat.ofDigitChars 10 n.whole 0
  if n.negative = false ∧ n.fraction = [] ∧ n.exponent = none ∧ value < Text.wordLimit then
    some value
  else none

/-! ### Rounding -/

/-- The nearest natural number that has at most 53 significant binary digits, and of two that are
equally near the one whose last such digit is even. -/
def roundToFloat (n : Nat) : Nat :=
  let unit := Nat.pow 2 (n.log2 - 52)
  let digits := n / unit
  let rest := n % unit
  if 2 * rest < unit ∨ (2 * rest = unit ∧ digits % 2 = 0) then digits * unit
  else (digits + 1) * unit

/-- The least magnitude that rounds to no finite floating point number. -/
def overflow : Nat :=
  Nat.pow 2 1024 - Nat.pow 2 970

/-- The greatest power of ten that is a finite floating point number. -/
def maxScale : Nat :=
  308

/-! ### Holding a number -/

/-- Reads digits after those of `start` as long as the number stays below `2 ^ 64`. Gives the
number and the digits that are left. -/
def takeWord (start : Nat) : Text → Nat × Text
  | [] => (start, [])
  | digit :: rest =>
    let next := Nat.ofDigitChars 10 [digit] start
    if next < Text.wordLimit then takeWord next rest else (start, digit :: rest)

/-- The value of the exponent. -/
def exponentValue (n : Number) : Int :=
  match n.exponent with
  | none => 0
  | some (negative, digits) =>
    let e : Int := Nat.ofDigitChars 10 digits 0
    if negative then -e else e

/-- The word that the digits of a number are read into, and the power of ten that it is to be
multiplied by. Digits before the point that do not fit raise the power; those after the point
are read on as far as they fit, and each lowers it. -/
def held (n : Number) : Nat × Int :=
  let (high, passed) := takeWord 0 n.whole
  let (word, ignored) := takeWord high n.fraction
  let taken := n.fraction.length - ignored.length
  (word, n.exponentValue + passed.length - taken)

/-- Whether a number is held as a finite floating point number. A negative power never leads out
of the range. -/
def isFinite (n : Number) : Bool :=
  let (word, scale) := n.held
  word = 0 || scale < 0 ||
    (scale ≤ maxScale && roundToFloat word * roundToFloat (Nat.pow 10 scale.toNat) < overflow)

end Json.Number

end Offside
