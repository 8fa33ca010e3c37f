import PinQuery.Plan.SemanticError
import PinQuery.Query.Canonical

/-!
# Conditions in the target language

`Expr.targetText` writes a condition as a C expression: names bare, every connective in
parentheses. A negation may only wrap a comparison or a connective.
-/

namespace PinQuery

/-- The sign of a comparison in the target language. -/
def Comparison.symbol : Comparison → String
  | .equal => "=="
  | .notEqual => "!="
  | .less => "<"
  | .lessEqual => "<="
  | .greater => ">"
  | .greaterEqual => ">="

/-- The sign of a connective in the target language. -/
def Connective.symbol : Connective → String
  | .and => "&&"
  | .or => "||"

/-- The expression of a node in the target language. -/
def Expr.targetText : Expr → Except SemanticError String
  | .column name => .ok name.text
  | .literal number => .ok number.value.text
  | .comparison op left right _ => do
    let leftText ← left.targetText
    let rightText ← right.targetText
    return leftText ++ " " ++ op.symbol ++ " " ++ rightText
  | .logical op left right _ => do
    let leftText ← left.targetText
    let rightText ← right.targetText
    return "(" ++ leftText ++ " " ++ op.symbol ++ " " ++ rightText ++ ")"
  | .negation inner span =>
    if inner.isBinary then do
      let text ← inner.targetText
      return if inner.isLogical then "!" ++ text else "!(" ++ text ++ ")"
    else
      .error (.unsupported inner.canonical span)

end PinQuery
