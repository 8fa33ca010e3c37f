import PinQuery.Target.Basic

/-!
# Listings

A plan in plain text, one line for each part, to see what a query means.
-/

namespace PinQuery.Listing

/-- A set of indices, or a dash for none. -/
def indices (set : OrderedSet Nat) : String :=
  if set.toList.isEmpty then "-" else ", ".intercalate (set.toList.map Nat.repr)

/-- A delay in seconds and milliseconds, if there is one. -/
def sleep (sleep : Sleep) : String :=
  if sleep.positive then
    sleep.seconds.text ++ "s (" ++ sleep.milliseconds.toInt.repr ++ "ms)"
  else
    "none"

/-- The lines of a listing. -/
def lines (plan : Plan) : List String :=
  ["target: " ++ plan.target,
    "speed: " ++ plan.baud.text,
    "sleep: " ++ sleep plan.sleep,
    "digital in: " ++ indices plan.pins.digitalIn,
    "analog in: " ++ indices plan.pins.analogIn,
    "digital out: " ++ indices plan.pins.digitalOut,
    "analog out: " ++ indices plan.pins.analogOut,
    "condition: " ++ plan.condition.text]

/-- The renderer of listings. -/
def renderer : Renderer := ⟨"dev", "txt", fun plan => unlines (lines plan)⟩

end PinQuery.Listing
