import PinQuery.Ordered
import PinQuery.Pin
import PinQuery.Plan.SemanticError

/-!
# Use of pins

A query names pins to print and pins to test. `PinUsage` collects the names, `PinUsage.partition`
sorts them by kind.
-/

namespace PinQuery

/-- The names of the pins a query uses: all of them, and those it prints. -/
structure PinUsage where
  referenced : OrderedSet String
  outputs : OrderedSet String
deriving DecidableEq

namespace PinUsage

/-- No pins. -/
def empty : PinUsage := ⟨.empty, .empty⟩

/-- One more pin to print. -/
def addOutput (usage : PinUsage) (name : String) : PinUsage :=
  ⟨usage.referenced.insert name, usage.outputs.insert name⟩

/-- One more pin to test. -/
def addInput (usage : PinUsage) (name : String) : PinUsage :=
  { usage with referenced := usage.referenced.insert name }

end PinUsage

/-- The indices of the used pins by kind: those that are read, and those that are printed. -/
structure PinSets where
  digitalIn : OrderedSet Nat
  analogIn : OrderedSet Nat
  digitalOut : OrderedSet Nat
  analogOut : OrderedSet Nat
deriving DecidableEq

/-- The pin that a name spells. Names come here without their place in the source. -/
def Pin.classify (name : String) : Except SemanticError Pin :=
  match Pin.ofName? name with
  | some pin => .ok pin
  | none => .error (.unsupported name ⟨0, 0⟩)

/-- The indices of the pins of one kind. -/
def Pin.indices (kind : PinKind) (pins : List Pin) : OrderedSet Nat :=
  .ofList ((pins.filter fun pin => pin.kind == kind).map Pin.index)

/-- The used pins sorted by kind, or the first name that spells no pin. -/
def PinUsage.partition (usage : PinUsage) : Except SemanticError PinSets := do
  let inputs ← usage.referenced.toList.mapM Pin.classify
  let outputs ← usage.outputs.toList.mapM Pin.classify
  return ⟨Pin.indices .digital inputs, Pin.indices .analog inputs, Pin.indices .digital outputs,
    Pin.indices .analog outputs⟩

end PinQuery
