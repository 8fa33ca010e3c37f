import PinQuery.Target.Basic

/-!
# Sketches

An Arduino sketch: `setup` opens the serial line and sets the digital pins, `loop` reads the pins,
prints some of them when the condition holds, and waits.
-/

namespace PinQuery.Sketch

/-- The lines that set the digital pins. -/
def modeLines (plan : Plan) : List String :=
  plan.pins.digitalIn.toList.map fun index => "  pinMode(" ++ index.repr ++ ", INPUT);"

/-- The lines that read the pins. -/
def readLines (plan : Plan) : List String :=
  plan.reads.map fun pin => "  int " ++ pin.name ++ " = " ++ pin.readCall ++ ";"

/-- The lines that print variables, commas between them. -/
def printLines : List String → List String
  | [] => ["    Serial.println();"]
  | [last] => ["    Serial.println(" ++ last ++ ");"]
  | first :: rest =>
    ("    Serial.print(" ++ first ++ ");") :: "    Serial.print(\",\");" :: printLines rest

/-- The line that waits, if there is a delay. -/
def delayLines (plan : Plan) : List String :=
  match plan.delay? with
  | some milliseconds => ["  delay(" ++ milliseconds.repr ++ ");"]
  | none => []

/-- The lines of a sketch. -/
def lines (plan : Plan) : List String :=
  ["// Generated by rossoc (target: " ++ plan.target ++ ")", "", "void setup() \x7b",
    "  Serial.begin(" ++ plan.baudRate.repr ++ ");"]
    ++ modeLines plan ++ ["\x7d", "", "void loop() \x7b"] ++ readLines plan
    ++ ["  if (" ++ plan.condition.text ++ ") \x7b"] ++ printLines (plan.prints.map Pin.name)
    ++ ["  \x7d"] ++ delayLines plan ++ ["\x7d"]

/-- The renderer of sketches under a name. -/
def renderer (name : String) : Renderer := ⟨name, "ino", fun plan => unlines (lines plan)⟩

end PinQuery.Sketch
