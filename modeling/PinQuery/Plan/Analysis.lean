import PinQuery.Plan.Basic
import PinQuery.Plan.Condition

/-!
# From queries to plans

`Plan.ofQuery` checks a query in a fixed order and stops at the first offence: the columns from left
to right, the target, then the condition from left to right.

A condition is a comparison of two leaves, a connective of two conditions, or the negation of a
comparison or a connective. Any other tree is an unsupported expression.
-/

namespace PinQuery

/-- A name that is a pin of the board. -/
def Name.checkPin (name : Name) : Except SemanticError Unit :=
  if (Pin.lookup? name.text).isSome then .ok () else .error (.unknownColumn name.text name.span)

/-- The error of a node that cannot stand where it does. -/
def Expr.unsupported (e : Expr) : SemanticError := .unsupported e.canonical e.span

/-- The pins used when the columns are printed too. -/
def checkColumns (columns : List Name) (usage : PinUsage) : Except SemanticError PinUsage :=
  columns.foldlM (fun usage column => do
    column.checkPin
    return usage.addOutput column.text) usage

/-- A target that is one of the known ones. -/
def TargetName.check (target : TargetName) (known : OrderedSet String) :
    Except SemanticError Unit :=
  if target.text ∈ known then .ok ()
  else .error (.unknownTarget target.text target.span known.toList)

namespace Expr

/-- The pins used when an operand is tested too. -/
def checkOperand (e : Expr) (usage : PinUsage) : Except SemanticError PinUsage :=
  match e with
  | .column name => do
    name.checkPin
    return usage.addInput name.text
  | .literal _ => .ok usage
  | _ => .error e.unsupported

/-- The pins used when a condition is tested too. -/
def checkCondition (usage : PinUsage) : Expr → Except SemanticError PinUsage
  | .column name => .error (Expr.column name).unsupported
  | .literal number => .error (Expr.literal number).unsupported
  | .comparison op left right span =>
    if left.isLeaf && right.isLeaf then do
      right.checkOperand (← left.checkOperand usage)
    else
      .error (Expr.comparison op left right span).unsupported
  | .logical _ left right _ => do
    right.checkCondition (← left.checkCondition usage)
  | .negation inner _ =>
    if inner.isBinary then inner.checkCondition usage else .error inner.unsupported

end Expr

/-- The loop condition of a `WHERE` clause, and the pins used with it. -/
def checkClause (usage : PinUsage) : Option Expr → Except SemanticError (LoopCondition × PinUsage)
  | none => .ok (.always, usage)
  | some e => do
    let usage ← e.checkCondition usage
    return (.test (← e.targetText), usage)

/-- The targets a program is rendered for. -/
def builtinTargets : List String := ["arduino", "board", "dev", "mruby"]

/-- The plan of a query for one of the known targets. -/
def Plan.ofQuery (known : OrderedSet String) (query : Query) : Except SemanticError Plan := do
  let columnUsage ← checkColumns query.columns .empty
  query.target.check known
  let (condition, usage) ← checkClause columnUsage query.condition
  let pins ← usage.partition
  return {
    usage
    pins
    condition
    sleep := match query.sleep with
      | some literal => .ofSeconds literal.value
      | none => .none
    baud := match query.speed with
      | some literal => literal.value
      | none => defaultBaud
    target := query.target.text }

end PinQuery
