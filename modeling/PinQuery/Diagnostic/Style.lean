/-!
# Colours

A shown line is a list of segments, some of them in a style. With colours a styled segment stands
between the escape sequences of its style; without colours it is its text.
-/

namespace PinQuery

/-- The styles, named for what is shown in them. -/
inductive Style
  | bar
  | label
  | category
  | faded
  | message
  | location
  | suggestion
  | marker
deriving DecidableEq, Repr

namespace Style

/-- The attributes switched on before a text. -/
def opening : Style → List Nat
  | .bar => [34]
  | .label => [31, 1]
  | .category => [1]
  | .faded => [2]
  | .message => [1, 37]
  | .location => [1, 36]
  | .suggestion => [1, 32]
  | .marker => [1, 93]

/-- The attributes switched off after a text. -/
def closing : Style → List Nat
  | .bar => [39]
  | .label => [0, 39]
  | .category => [0]
  | .faded => [0]
  | .message => [39, 0]
  | .location => [39, 0]
  | .suggestion => [39, 0]
  | .marker => [39, 0]

/-- The escape sequence of an attribute. -/
def escape (number : Nat) : String := "\x1b[" ++ number.repr ++ "m"

/-- The escape sequences of some attributes. -/
def escapes (numbers : List Nat) : String := String.join (numbers.map escape)

end Style

/-- A text in a style, or plain. -/
structure Segment where
  style : Option Style
  text : String
deriving DecidableEq, Repr

namespace Segment

/-- A text without a style. -/
def plain (text : String) : Segment := ⟨none, text⟩

/-- A text in a style. -/
def styled (style : Style) (text : String) : Segment := ⟨some style, text⟩

/-- The segment as it is written. -/
def write (colours : Bool) (s : Segment) : String :=
  match s.style, colours with
  | some style, true => Style.escapes style.opening ++ s.text ++ Style.escapes style.closing
  | _, _ => s.text

/-- A line of segments as it is written. -/
def writeLine (colours : Bool) (line : List Segment) : String :=
  String.join (line.map (write colours)) ++ "\n"

end Segment

end PinQuery
