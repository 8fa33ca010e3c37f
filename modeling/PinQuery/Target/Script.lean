import PinQuery.Target.Basic

/-!
# Scripts

An mruby script for boards with the calls of the Arduino library. It does what the sketch of the
same plan does.
-/

namespace PinQuery.Script

/-- The lines that set the digital pins. -/
def modeLines (plan : Plan) : List String :=
  plan.pins.digitalIn.toList.map fun index => "pinMode(" ++ index.repr ++ ", INPUT)"

/-- The lines that read the pins. -/
def readLines (plan : Plan) : List String :=
  plan.reads.map fun pin => "  " ++ pin.name ++ " = " ++ pin.readCall

/-- The line that prints variables, commas between them. -/
def printLine (names : List String) : String :=
  "    Serial.println([" ++ ", ".intercalate names ++ "].join(','))"

/-- The line that waits, if there is a delay. -/
def delayLines (plan : Plan) : List String :=
  match plan.delay? with
  | some milliseconds => ["  delay(" ++ milliseconds.repr ++ ")"]
  | none => []

/-- The lines of a script. -/
def lines (plan : Plan) : List String :=
  ["# Generated by rossoc (target: " ++ plan.target ++ ")", "",
    "Serial.begin(" ++ plan.baudRate.repr ++ ")"]
    ++ modeLines plan ++ ["", "loop do"] ++ readLines plan ++ ["  if " ++ plan.condition.text]
    ++ [printLine (plan.prints.map Pin.name)] ++ ["  end"] ++ delayLines plan ++ ["end"]

/-- The renderer of scripts. -/
def renderer : Renderer := ⟨"mruby", "rb", fun plan => unlines (lines plan)⟩

end PinQuery.Script
