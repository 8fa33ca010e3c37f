import PinQuery.Diagnostic.Code
import PinQuery.Text.Span

/-!
# Syntax errors

A text that is no query fails at one place for one cause. The catalogue gives every cause its code,
title, message and general advice.
-/

namespace PinQuery

/-- Why a text is no query. -/
inductive SyntaxCause
  /-- No token begins here. -/
  | invalidCharacter
  /-- The number does not fit. -/
  | invalidNumber
  /-- The token cannot stand here. -/
  | unexpectedToken (expected : Option String) (found : String)
  /-- The query is not complete. -/
  | unexpectedEnd (expected : String)
  /-- The query ends before this parenthesis is closed. -/
  | unclosedParen (opening : Span)
  /-- The closing parenthesis closes nothing. -/
  | unmatchedClosing
  /-- A condition cannot begin with this token. -/
  | expectedCondition (found : String)
deriving DecidableEq, Repr

namespace SyntaxCause

/-- The code of a cause. -/
def code : SyntaxCause → Code
  | .invalidCharacter => .invalidCharacter
  | .invalidNumber => .invalidNumber
  | .unexpectedToken _ _ => .unexpectedToken
  | .unexpectedEnd _ => .unexpectedEnd
  | .unclosedParen _ => .unclosedParen
  | .unmatchedClosing => .unmatchedClosing
  | .expectedCondition _ => .expectedCondition

/-- The title of a cause. -/
def title : SyntaxCause → String
  | .invalidCharacter => "Invalid character in query"
  | .invalidNumber => "Number literal has invalid format"
  | .unexpectedToken _ _ => "Unexpected token"
  | .unexpectedEnd _ => "Unexpected end of query"
  | .unclosedParen _ => "Unclosed parenthesis"
  | .unmatchedClosing => "Unmatched closing parenthesis"
  | .expectedCondition _ => "Expected a condition"

/-- What can be done about a cause in general. -/
def advice? : SyntaxCause → Option String
  | .invalidCharacter =>
    some "Queries only use identifiers, numbers, comparison operators, parentheses and commas"
  | .invalidNumber => some "Valid examples: 42, 0.5, 1e3"
  | .unexpectedToken _ _ => none
  | .unexpectedEnd _ =>
    some ("The query is incomplete. Expected form: "
      ++ "SELECT <pins> FROM <target> [WHERE ...] [RSLEEP n] [RSPEED n]")
  | .unclosedParen _ => some "Add the missing ')'"
  | .unmatchedClosing => some "Remove the extra ')' or add the matching '('"
  | .expectedCondition _ =>
    some "Conditions compare two operands, e.g. din1 = 0 or ain2 > 512"

/-- What is said about a cause. -/
def message : SyntaxCause → String
  | .invalidCharacter => "Invalid character in query"
  | .invalidNumber => "Number literal has invalid format"
  | .unexpectedToken (some expected) found =>
    "Unexpected token '" ++ found ++ "', expected " ++ expected
  | .unexpectedToken none found => "Unexpected token '" ++ found ++ "'"
  | .unexpectedEnd expected => "Unexpected end of query, expected " ++ expected
  | .unclosedParen _ => "Unclosed delimiter, expected ')'"
  | .unmatchedClosing => "Unmatched closing delimiter ')'"
  | .expectedCondition found => "Expected a comparison or '(' but found '" ++ found ++ "'"

end SyntaxCause

/-- A cause and the span where it arose. -/
structure SyntaxError where
  cause : SyntaxCause
  span : Span
deriving DecidableEq, Repr

namespace SyntaxError

/-- The kind of error in a report. -/
def category : String := "SyntaxError"

/-- The error in one line, with its code and offset. -/
def describe (error : SyntaxError) : String :=
  error.cause.code.text ++ ": " ++ error.cause.message ++ " (at offset " ++ error.span.start.repr
    ++ ")"

end SyntaxError

end PinQuery
