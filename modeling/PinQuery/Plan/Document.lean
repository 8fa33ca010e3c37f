import PinQuery.Json
import PinQuery.Plan.Basic

/-!
# Plans as JSON

The document of a plan, for tools that read plans.
-/

namespace PinQuery

/-- A set of names. -/
def Json.ofNames (names : OrderedSet String) : Json := .array (names.toList.map .string)

/-- A set of indices. -/
def Json.ofIndices (indices : OrderedSet Nat) : Json :=
  .array (indices.toList.map fun index => .number index.repr)

/-- A number. -/
def Json.ofNumber (number : Number) : Json := .number number.json

/-- The document of a plan. -/
def Plan.document (plan : Plan) : Json :=
  .object
    [("pins", .object
        [("referenced", .ofNames plan.usage.referenced), ("outputs", .ofNames plan.usage.outputs)]),
      ("digital_in", .ofIndices plan.pins.digitalIn),
      ("analog_in", .ofIndices plan.pins.analogIn),
      ("digital_out", .ofIndices plan.pins.digitalOut),
      ("analog_out", .ofIndices plan.pins.analogOut),
      ("condition", .string plan.condition.text),
      ("sleep", .object
        [("seconds", .ofNumber plan.sleep.seconds),
          ("milliseconds", .number plan.sleep.milliseconds.toInt.repr),
          ("positive", .bool plan.sleep.positive)]),
      ("speed", .object [("baud", .ofNumber plan.baud)]),
      ("target", .string plan.target)]

end PinQuery
