/-!
# Advice on habits from elsewhere

Words and operators that other query languages have, and what to write instead.
-/

namespace PinQuery.Advice

/-- Advice on a word, whatever its case. -/
def forWord? (word : String) : Option String :=
  match word.toLower with
  | "sleep" | "delay" | "wait" => some "Use RSLEEP <seconds> for the loop delay"
  | "speed" | "baud" => some "Use RSPEED <baud> for the serial speed"
  | "order" => some "ORDER BY is not supported"
  | "group" => some "GROUP BY is not supported"
  | "join" => some "Only a single FROM target is supported"
  | "limit" => some "LIMIT is not supported"
  | _ => none

/-- Advice on an operator. -/
def forOperator? : String → Option String
  | "==" => some "Use '=' for equality"
  | "&" => some "Use AND to combine conditions"
  | "|" => some "Use OR to combine conditions"
  | "!" => some "Use NOT to negate a condition, or '<>' for inequality"
  | "*" => some "Name the selected pins explicitly, e.g. SELECT din1, ain0"
  | _ => none

end PinQuery.Advice
