import PinQuery.Plan.Basic

/-!
# What programs are made of

The parts of a plan that every program shows: the pins in the order in which they are read and
printed, the line speed and the delay as the numbers that a board takes.
-/

namespace PinQuery

namespace Plan

/-- The pins that are read, digital ones first, each kind in increasing order. -/
def reads (plan : Plan) : List Pin :=
  plan.pins.digitalIn.toList.map (Pin.mk .digital) ++ plan.pins.analogIn.toList.map (Pin.mk .analog)

/-- The pins that are printed, digital ones first, each kind in increasing order. -/
def prints (plan : Plan) : List Pin :=
  plan.pins.digitalOut.toList.map (Pin.mk .digital)
    ++ plan.pins.analogOut.toList.map (Pin.mk .analog)

/-- The speed of the serial line as a whole number of 32 bits. -/
def baudRate (plan : Plan) : Nat := plan.baud.toWord

/-- The delay in milliseconds as a whole number of 32 bits, if there is one. -/
def delay? (plan : Plan) : Option Nat :=
  if plan.sleep.positive then some (min plan.sleep.milliseconds.toInt.toNat Number.maxWord)
  else none

end Plan

/-- The function that reads a kind of pin. -/
def PinKind.readFunction : PinKind → String
  | .digital => "digitalRead"
  | .analog => "analogRead"

/-- The call that reads a pin. -/
def Pin.readCall (pin : Pin) : String := pin.kind.readFunction ++ "(" ++ pin.index.repr ++ ")"

/-- Lines, each closed by a line feed. -/
def unlines (lines : List String) : String := String.join (lines.map (· ++ "\n"))

/-- A way to turn plans into programs. Its name is what a query selects from. -/
structure Renderer where
  name : String
  extension : String
  render : Plan → String

end PinQuery
