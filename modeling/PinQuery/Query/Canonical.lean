import PinQuery.Query.Basic

/-!
# Canonical text

Every query has one canonical text, and reading it gives the query back. Names stand between
backticks, the unequal sign is `<>`, and every `AND` and `OR` is in parentheses, so that the text
shows the tree whatever the layout of the source was.
-/

namespace PinQuery

/-- The sign of a comparison in a query. -/
def Comparison.spelling : Comparison → String
  | .equal => "="
  | .notEqual => "<>"
  | .less => "<"
  | .lessEqual => "<="
  | .greater => ">"
  | .greaterEqual => ">="

/-- The comparison that a sign stands for; the unequal sign has two forms. -/
def Comparison.ofSpelling? : String → Option Comparison
  | "=" => some .equal
  | "<>" => some .notEqual
  | "!=" => some .notEqual
  | "<" => some .less
  | "<=" => some .lessEqual
  | ">" => some .greater
  | ">=" => some .greaterEqual
  | _ => none

/-- The word of a connective in a query. -/
def Connective.spelling : Connective → String
  | .and => "AND"
  | .or => "OR"

/-- The connective that a word in capitals stands for. -/
def Connective.ofSpelling? : String → Option Connective
  | "AND" => some .and
  | "OR" => some .or
  | _ => none

/-- A name between backticks. -/
def quoteName (name : String) : String := "`" ++ name ++ "`"

/-- The canonical text of a node. -/
def Expr.canonical : Expr → String
  | .column name => quoteName name.text
  | .literal number => number.value.text
  | .comparison op left right _ => left.canonical ++ " " ++ op.spelling ++ " " ++ right.canonical
  | .logical op left right _ =>
    "(" ++ left.canonical ++ " " ++ op.spelling ++ " " ++ right.canonical ++ ")"
  | .negation inner _ =>
    if inner.isLogical then "NOT " ++ inner.canonical else "NOT (" ++ inner.canonical ++ ")"

/-- A clause that may be absent. -/
def optionalClause (keyword : String) : Option String → String
  | some text => " " ++ keyword ++ " " ++ text
  | none => ""

/-- The canonical text of a query. -/
def Query.canonical (query : Query) : String :=
  "SELECT " ++ ", ".intercalate (query.columns.map fun column => quoteName column.text)
    ++ " FROM " ++ quoteName query.target.text
    ++ optionalClause "WHERE" (query.condition.map Expr.canonical)
    ++ optionalClause "RSLEEP" (query.sleep.map fun literal => literal.value.text)
    ++ optionalClause "RSPEED" (query.speed.map fun literal => literal.value.text)

end PinQuery
