import PinQuery.Number
import PinQuery.Text.Span

/-!
# Queries

A query selects pins of a target, and may have a condition, a loop delay and a line speed:
`SELECT din1, ain2 FROM board WHERE din3 = 1 RSLEEP 0.5 RSPEED 115200`.

`Expr` is any tree over names, numbers, comparisons, connectives and negations. Which trees are
conditions is for the analysis to say.
-/

namespace PinQuery

/-- The comparisons of two operands. -/
inductive Comparison
  | equal
  | notEqual
  | less
  | lessEqual
  | greater
  | greaterEqual
deriving DecidableEq, Repr

/-- The connectives of two conditions. -/
inductive Connective
  | and
  | or
deriving DecidableEq, Repr

/-- A name as it stands in a query; `quoted` tells whether it was written between backticks. -/
structure Name where
  text : String
  quoted : Bool
  span : Span
deriving DecidableEq, Repr

/-- A number as it stands in a query, its sign included. -/
structure Literal where
  value : Number
  span : Span
deriving DecidableEq

/-- The target of a query as it stands there. -/
structure TargetName where
  text : String
  span : Span
deriving DecidableEq, Repr

/-- The nodes of a condition. -/
inductive Expr
  | column (name : Name)
  | literal (number : Literal)
  | comparison (op : Comparison) (left right : Expr) (span : Span)
  | logical (op : Connective) (left right : Expr) (span : Span)
  | negation (inner : Expr) (span : Span)
deriving DecidableEq

/-- Where a node stands. -/
def Expr.span : Expr → Span
  | .column name => name.span
  | .literal number => number.span
  | .comparison _ _ _ span => span
  | .logical _ _ _ span => span
  | .negation _ span => span

/-- Names and numbers, the only operands of a comparison. -/
def Expr.isLeaf : Expr → Bool
  | .column _ => true
  | .literal _ => true
  | _ => false

/-- Two conditions under a connective. -/
def Expr.isLogical : Expr → Bool
  | .logical _ _ _ _ => true
  | _ => false

/-- Comparisons and connectives, the only nodes a negation may wrap. -/
def Expr.isBinary : Expr → Bool
  | .comparison _ _ _ _ => true
  | .logical _ _ _ _ => true
  | _ => false

/-- A query. -/
structure Query where
  columns : List Name
  target : TargetName
  condition : Option Expr
  sleep : Option Literal
  speed : Option Literal
  span : Span
deriving DecidableEq

end PinQuery
