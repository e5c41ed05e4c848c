import Offside.Text.Basic

/-!
# Terminal colours

A styled text is written between the sequence that switches its style on and the one that
switches every style off. Should the text itself switch styles off, its own style is switched on
again right after. Where colours are not wanted a styled text is the text alone.
-/

namespace Offside

namespace Ansi

/-- The colours in use. -/
inductive Colour where
  | red
  | green
  | yellow
  | blue
  | cyan
  deriving DecidableEq, Repr

/-- A colour, bold or not. -/
structure Style where
  colour : Colour
  bold : Bool := false
  deriving DecidableEq, Repr

/-- The digits of a foreground colour. -/
def Colour.code : Colour → Text
  | .red => ['3', '1']
  | .green => ['3', '2']
  | .yellow => ['3', '3']
  | .blue => ['3', '4']
  | .cyan => ['3', '6']

/-- The escape character. -/
def escape : Char :=
  '\x1b'

/-- The sequence that switches a style on. -/
def Style.start (s : Style) : Text :=
  [escape, '['] ++ (if s.bold then ['1', ';'] else []) ++ s.colour.code ++ ['m']

/-- The sequence that switches every style off. -/
def reset : Text :=
  [escape, '[', '0', 'm']

/-- A text in which `start` follows every sequence that switches styles off. -/
def resume (start : Text) : Text → Text
  | [] => []
  | c :: rest =>
    match c, rest with
    | '\x1b', '[' :: '0' :: 'm' :: after => reset ++ start ++ resume start after
    | c, rest => c :: resume start rest

/-- A text in a style, where colours are wanted. -/
def paint (coloured : Bool) (style : Style) (t : Text) : Text :=
  if coloured then style.start ++ resume style.start t ++ reset else t

end Ansi

end Offside
