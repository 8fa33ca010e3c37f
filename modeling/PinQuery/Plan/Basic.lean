import PinQuery.Number
import PinQuery.Pin.Usage

/-!
# Plans

A plan is what a query asks of a board: which pins to read, when to print which of them, how long
to wait between two rounds, and how fast the serial line is. Programs are rendered from plans.
-/

namespace PinQuery

/-- When the pins are printed. -/
inductive LoopCondition
  /-- In every round. -/
  | always
  /-- When an expression of the target language holds. -/
  | test (text : String)
deriving DecidableEq, Repr

/-- The condition as an expression of the target language. -/
def LoopCondition.text : LoopCondition → String
  | .always => "1"
  | .test text => text

/-- The delay at the end of every round. -/
structure Sleep where
  seconds : Number
  milliseconds : Int64
  positive : Bool
deriving DecidableEq

/-- The delay of a number of seconds. -/
def Sleep.ofSeconds (seconds : Number) : Sleep :=
  ⟨seconds, seconds.milliseconds, seconds.isPositive⟩

/-- No delay. -/
def Sleep.none : Sleep := .ofSeconds (.int 0)

/-- The speed of the serial line where a query names none. -/
def defaultBaud : Number := .int 9600

/-- What a query asks of a board. -/
structure Plan where
  usage : PinUsage
  pins : PinSets
  condition : LoopCondition
  sleep : Sleep
  baud : Number
  target : String
deriving DecidableEq

end PinQuery
