import PinQuery.Query.Basic
import PinQuery.Query.SyntaxError
import PinQuery.Token.Scan

/-!
# Reading a query

A query is read from left to right, one token at a time. The grammar is

    query     := SELECT name (',' name)* FROM name
                 [WHERE condition] [RSLEEP number] [RSPEED number] [';'] end
    condition := conjunct (OR conjunct)*
    conjunct  := factor (AND factor)*
    factor    := NOT factor | '(' condition ')' | operand comparison operand
    operand   := name | number
    number    := ['+' | '-'] numeral

* A `Stage` is all that is remembered of the tokens read so far. Operands that wait for their right
  neighbour are kept per parenthesis level (`Pending`), the levels on a stack (`Paren`).
* `Stage.next?` is the stage after one more token, if the token can stand there.
* `Stage.expected` lists what could stand there, and `Stage.refuse` is the error otherwise.
* `Stage.finish?` is the query, if it may end there.
* `Query.parse` reads a source. A stretch where no token begins is reported before anything else.

Conjunctions are built as soon as their right operand is complete, disjunctions when the next `OR`
or the end of their level is reached, so both associate to the left.
-/

namespace PinQuery

/-! ## Expectations -/

/-- What a message can name as expected. -/
inductive Expectation
  | keyword (word : Keyword)
  | columnName
  | targetName
  | number
  | condition
  | comparison
  | closingParen
  | endOfQuery
deriving DecidableEq, Repr

namespace Expectation

/-- How a message calls an expectation. -/
def text : Expectation → String
  | .keyword word => word.spelling
  | .columnName => "column name"
  | .targetName => "target name"
  | .number => Kind.number.describe
  | .condition => "condition"
  | .comparison => "comparison operator"
  | .closingParen => Kind.rightParen.describe
  | .endOfQuery => Kind.endOfQuery.describe

/-- Several expectations in one phrase: commas between them, the last after an `or`. -/
def phrase : List Expectation → String
  | [] => ""
  | [last] => last.text
  | [first, last] => first.text ++ " or " ++ last.text
  | first :: rest => first.text ++ ", " ++ phrase rest

end Expectation

/-! ## Stages -/

/-- A sign in front of a number and where it stands. -/
structure Sign where
  negative : Bool
  start : Nat
deriving DecidableEq, Repr

/-- What stands to the left of the predicate that comes next, on its parenthesis level. -/
structure Pending where
  /-- The left operand of an `OR`. -/
  disjunct : Option Expr
  /-- The left operand of an `AND`. -/
  conjunct : Option Expr
  /-- The starts of the `NOT`s, the innermost first. -/
  negations : List Nat
deriving DecidableEq

/-- Nothing stands to the left. -/
def Pending.empty : Pending := ⟨none, none, []⟩

/-- An open parenthesis and what stands to its left. -/
structure Paren where
  span : Span
  outer : Pending
deriving DecidableEq

/-- The place inside a condition. -/
inductive Place
  /-- Before a predicate. -/
  | predicate (pending : Pending)
  /-- After the sign of a left operand. -/
  | leftNumber (pending : Pending) (sign : Sign)
  /-- After a left operand. -/
  | operator (pending : Pending) (left : Expr)
  /-- After a comparison. -/
  | rightOperand (pending : Pending) (left : Expr) (op : Comparison)
  /-- After the sign of a right operand. -/
  | rightNumber (pending : Pending) (left : Expr) (op : Comparison) (sign : Sign)
  /-- After a complete conjunct. -/
  | ended (disjunct : Option Expr) (value : Expr)
deriving DecidableEq

/-- The clauses read so far. -/
structure Draft where
  start : Nat
  columns : List Name
  target : TargetName
  condition : Option Expr
  sleep : Option Literal
  speed : Option Literal
deriving DecidableEq

/-- The place inside a query. -/
inductive Stage
  /-- Before anything. -/
  | select
  /-- Before a column name. -/
  | column (start : Nat) (columns : List Name)
  /-- After a column name. -/
  | columnEnd (start : Nat) (columns : List Name)
  /-- Before the target name. -/
  | target (start : Nat) (columns : List Name)
  /-- After the target or after a clause. -/
  | clauses (draft : Draft)
  /-- Inside the condition, within these parentheses. -/
  | condition (draft : Draft) (parens : List Paren) (place : Place)
  /-- Before the number of seconds. -/
  | sleep (draft : Draft) (sign : Option Sign)
  /-- Before the line speed. -/
  | speed (draft : Draft) (sign : Option Sign)
  /-- After the semicolon. -/
  | closed (draft : Draft)
deriving DecidableEq

/-! ## Pieces of a query -/

/-- The name that a token stands for, without its backticks. -/
def Token.name? (token : Token) : Option Name :=
  match token.kind with
  | .name => some ⟨token.text, false, token.span⟩
  | .quotedName =>
    some ⟨String.ofList (token.text.toList.drop 1).dropLast, true, token.span⟩
  | _ => none

/-- The comparison that a token stands for. -/
def Kind.comparison? : Kind → Option Comparison
  | .equal => some .equal
  | .bangEqual => some .notEqual
  | .lessGreater => some .notEqual
  | .less => some .less
  | .lessEqual => some .lessEqual
  | .greater => some .greater
  | .greaterEqual => some .greaterEqual
  | _ => none

/-- The sign that a token stands for. -/
def Token.sign? (token : Token) : Option Sign :=
  match token.kind with
  | .plus => some ⟨false, token.span.start⟩
  | .minus => some ⟨true, token.span.start⟩
  | _ => none

/-- The literal of a number token behind an optional sign. -/
def Token.literal (token : Token) (sign : Option Sign) : Except SyntaxError Literal :=
  match Number.ofNumeral? token.text.toList with
  | none => .error ⟨.invalidNumber, token.span⟩
  | some value =>
    match sign with
    | none => .ok ⟨value, token.span⟩
    | some sign =>
      .ok ⟨if sign.negative then value.negate else value, ⟨sign.start, token.span.stop⟩⟩

/-- Two nodes under a connective. -/
def Expr.join (op : Connective) (left right : Expr) : Expr :=
  .logical op left right (left.span.cover right.span)

/-- A node behind an optional left neighbour. -/
def Expr.joinOptional (op : Connective) (left : Option Expr) (right : Expr) : Expr :=
  match left with
  | some left => left.join op right
  | none => right

/-- The place after a predicate that ends at the offset `stop`: its `NOT`s and a waiting
conjunction are built. -/
def Pending.complete (pending : Pending) (predicate : Expr) (stop : Nat) : Place :=
  let factor := pending.negations.foldl (fun inner start => .negation inner ⟨start, stop⟩) predicate
  .ended pending.disjunct (.joinOptional .and pending.conjunct factor)

/-- The place after the right operand of a comparison. -/
def Pending.compare (pending : Pending) (op : Comparison) (left right : Expr) : Place :=
  pending.complete (.comparison op left right (left.span.cover right.span)) right.span.stop

/-! ## One more token -/

/-- The stage after a keyword or mark that follows the clauses of a draft. -/
def Draft.next? (draft : Draft) (kind : Kind) : Option Stage :=
  let beforeSpeed := draft.speed.isNone
  let beforeSleep := beforeSpeed && draft.sleep.isNone
  let beforeCondition := beforeSleep && draft.condition.isNone
  match kind with
  | .keyword .where_ =>
    if beforeCondition then some (.condition draft [] (.predicate .empty)) else none
  | .keyword .rsleep => if beforeSleep then some (.sleep draft none) else none
  | .keyword .rspeed => if beforeSpeed then some (.speed draft none) else none
  | .semicolon => some (.closed draft)
  | _ => none

/-- The place after a token that begins a predicate. -/
def Pending.next? (pending : Pending) (draft : Draft) (parens : List Paren) (token : Token) :
    Option (Except SyntaxError Stage) :=
  match token.kind with
  | .keyword .not =>
    some (.ok (.condition draft parens
      (.predicate { pending with negations := token.span.start :: pending.negations })))
  | .leftParen =>
    some (.ok (.condition draft (⟨token.span, pending⟩ :: parens) (.predicate .empty)))
  | .number =>
    some ((token.literal none).map fun literal =>
      .condition draft parens (.operator pending (.literal literal)))
  | _ =>
    match token.name?, token.sign? with
    | some name, _ => some (.ok (.condition draft parens (.operator pending (.column name))))
    | none, some sign => some (.ok (.condition draft parens (.leftNumber pending sign)))
    | none, none => none

/-- The stage after one more token inside a condition. -/
def Place.next? (place : Place) (draft : Draft) (parens : List Paren) (token : Token) :
    Option (Except SyntaxError Stage) :=
  match place with
  | .predicate pending => pending.next? draft parens token
  | .leftNumber pending sign =>
    match token.kind with
    | .number =>
      some ((token.literal (some sign)).map fun literal =>
        .condition draft parens (.operator pending (.literal literal)))
    | _ => none
  | .operator pending left =>
    token.kind.comparison?.map fun op =>
      .ok (.condition draft parens (.rightOperand pending left op))
  | .rightOperand pending left op =>
    match token.kind with
    | .number =>
      some ((token.literal none).map fun literal =>
        .condition draft parens (pending.compare op left (.literal literal)))
    | _ =>
      match token.name?, token.sign? with
      | some name, _ =>
        some (.ok (.condition draft parens (pending.compare op left (.column name))))
      | none, some sign => some (.ok (.condition draft parens (.rightNumber pending left op sign)))
      | none, none => none
  | .rightNumber pending left op sign =>
    match token.kind with
    | .number =>
      some ((token.literal (some sign)).map fun literal =>
        .condition draft parens (pending.compare op left (.literal literal)))
    | _ => none
  | .ended disjunct value =>
    match token.kind, parens with
    | .keyword .and, _ =>
      some (.ok (.condition draft parens (.predicate ⟨disjunct, some value, []⟩)))
    | .keyword .or, _ =>
      some (.ok (.condition draft parens
        (.predicate ⟨some (.joinOptional .or disjunct value), none, []⟩)))
    | .rightParen, paren :: outer =>
      some (.ok (.condition draft outer
        (paren.outer.complete (.joinOptional .or disjunct value) token.span.stop)))
    | kind, [] =>
      (Draft.next? { draft with condition := some (.joinOptional .or disjunct value) } kind).map .ok
    | _, _ => none

/-- The stage after one more token, or the error of a number that does not fit; `none` if the token
cannot stand there. -/
def Stage.next? (stage : Stage) (token : Token) : Option (Except SyntaxError Stage) :=
  match stage with
  | .select =>
    if token.kind = .keyword .select then some (.ok (.column token.span.start [])) else none
  | .column start columns => token.name?.map fun name => .ok (.columnEnd start (columns ++ [name]))
  | .columnEnd start columns =>
    match token.kind with
    | .comma => some (.ok (.column start columns))
    | .keyword .from_ => some (.ok (.target start columns))
    | _ => none
  | .target start columns =>
    token.name?.map fun name =>
      .ok (.clauses ⟨start, columns, ⟨name.text, name.span⟩, none, none, none⟩)
  | .clauses draft => (draft.next? token.kind).map .ok
  | .condition draft parens place => place.next? draft parens token
  | .sleep draft sign =>
    match token.kind, sign, token.sign? with
    | .number, _, _ =>
      some ((token.literal sign).map fun literal => .clauses { draft with sleep := some literal })
    | _, none, some sign => some (.ok (.sleep draft (some sign)))
    | _, _, _ => none
  | .speed draft sign =>
    match token.kind, sign, token.sign? with
    | .number, _, _ =>
      some ((token.literal sign).map fun literal => .clauses { draft with speed := some literal })
    | _, none, some sign => some (.ok (.speed draft (some sign)))
    | _, _, _ => none
  | .closed _ => none

/-! ## Errors -/

/-- What may follow the clauses of a draft, the semicolon apart. -/
def Draft.expected (draft : Draft) : List Expectation :=
  match draft.condition, draft.sleep, draft.speed with
  | _, _, some _ => [.endOfQuery]
  | _, some _, none => [.keyword .rspeed, .endOfQuery]
  | some _, none, none => [.keyword .rsleep, .keyword .rspeed, .endOfQuery]
  | none, none, none => [.keyword .where_, .keyword .rsleep, .keyword .rspeed, .endOfQuery]

/-- What may follow inside a condition. -/
def Place.expected (place : Place) (draft : Draft) (parens : List Paren) : List Expectation :=
  match place, parens with
  | .predicate _, _ => [.condition]
  | .leftNumber _ _, _ => [.number]
  | .operator _ _, _ => [.comparison]
  | .rightOperand _ _ _, _ => [.columnName, .number]
  | .rightNumber _ _ _ _, _ => [.number]
  | .ended _ _, _ :: _ => [.closingParen]
  | .ended disjunct value, [] =>
    Draft.expected { draft with condition := some (.joinOptional .or disjunct value) }

/-- What a message names as expected at a stage. -/
def Stage.expected : Stage → List Expectation
  | .select => [.keyword .select]
  | .column _ _ => [.columnName]
  | .columnEnd _ _ => [.keyword .from_]
  | .target _ _ => [.targetName]
  | .clauses draft => draft.expected
  | .condition draft parens place => place.expected draft parens
  | .sleep _ _ => [.number]
  | .speed _ _ => [.number]
  | .closed draft => draft.expected

/-- The parentheses that are open at a stage, the innermost first. -/
def Stage.parens : Stage → List Paren
  | .condition _ parens _ => parens
  | _ => []

/-- The error of a token that none of the expected ones is. -/
def Stage.unexpected (stage : Stage) (token : Token) : SyntaxError :=
  let expected := Expectation.phrase stage.expected
  match token.kind, stage.parens with
  | .endOfQuery, _ => ⟨.unexpectedEnd expected, token.span⟩
  | .rightParen, [] => ⟨.unmatchedClosing, token.span⟩
  | _, _ => ⟨.unexpectedToken (some expected) token.text, token.span⟩

/-- The error of a token that cannot stand at a stage. -/
def Stage.refuse (stage : Stage) (token : Token) : SyntaxError :=
  match stage, token.kind with
  | .condition _ _ (.predicate _), .endOfQuery => stage.unexpected token
  | .condition _ _ (.predicate _), .rightParen => stage.unexpected token
  | .condition _ _ (.predicate _), _ => ⟨.expectedCondition token.text, token.span⟩
  | .condition _ (paren :: _) (.ended _ _), .endOfQuery => ⟨.unclosedParen paren.span, token.span⟩
  | _, _ => stage.unexpected token

/-! ## Reading -/

/-- The stage after one more token, or the error of reading it. -/
def Stage.step (stage : Stage) (token : Token) : Except SyntaxError Stage :=
  match stage.next? token with
  | some result => result
  | none => .error (stage.refuse token)

/-- The query of a draft whose last token ends at `stop`. -/
def Draft.query (draft : Draft) (stop : Nat) : Query :=
  ⟨draft.columns, draft.target, draft.condition, draft.sleep, draft.speed, ⟨draft.start, stop⟩⟩

/-- The query, if it may end at this stage. -/
def Stage.finish? (stage : Stage) (stop : Nat) : Option Query :=
  match stage with
  | .clauses draft => some (draft.query stop)
  | .condition draft [] (.ended disjunct value) =>
    some (Draft.query { draft with condition := some (.joinOptional .or disjunct value) } stop)
  | .closed draft => some (draft.query stop)
  | _ => none

/-- The end of the last of some tokens. -/
def lastStop (tokens : List Token) : Nat :=
  match tokens.getLast? with
  | some token => token.span.stop
  | none => 0

/-- The query that tokens spell in a text of `size` bytes. -/
def Query.read (tokens : List Token) (size : Nat) : Except SyntaxError Query := do
  let stage ← tokens.foldlM Stage.step .select
  match stage.finish? (lastStop tokens) with
  | some query => .ok query
  | none => .error (stage.refuse (.endAt size))

/-- The query that a source spells. -/
def Query.parse (source : String) : Except SyntaxError Query :=
  match faultsOf source with
  | span :: _ => .error ⟨.invalidCharacter, span⟩
  | [] => Query.read (tokensOf source) (endOf source)

end PinQuery
