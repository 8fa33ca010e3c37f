/-!
# Error codes

Every failure has a stable code: `E1…` for the characters of a query, `E2…` for its grammar, `E3…`
for its meaning and `E4…` for the output.
-/

namespace PinQuery

/-- The codes, named for what went wrong. -/
inductive Code
  | invalidCharacter
  | invalidNumber
  | unexpectedToken
  | unexpectedEnd
  | unclosedParen
  | unmatchedClosing
  | expectedCondition
  | unknownColumn
  | unknownTarget
  | unsupportedExpression
  | unregisteredTarget
  | noOutputPath
  | fileExists
  | noContent
  | ioFailure
deriving DecidableEq, Repr

namespace Code

/-- Every code, in the order of their numbers. -/
def all : List Code :=
  [.invalidCharacter, .invalidNumber, .unexpectedToken, .unexpectedEnd, .unclosedParen,
    .unmatchedClosing, .expectedCondition, .unknownColumn, .unknownTarget, .unsupportedExpression,
    .unregisteredTarget, .noOutputPath, .fileExists, .noContent, .ioFailure]

/-- The number of a code. -/
def number : Code → Nat
  | .invalidCharacter => 1001
  | .invalidNumber => 1003
  | .unexpectedToken => 2001
  | .unexpectedEnd => 2003
  | .unclosedParen => 2006
  | .unmatchedClosing => 2007
  | .expectedCondition => 2009
  | .unknownColumn => 3001
  | .unknownTarget => 3002
  | .unsupportedExpression => 3003
  | .unregisteredTarget => 4001
  | .noOutputPath => 4002
  | .fileExists => 4003
  | .noContent => 4004
  | .ioFailure => 4005

/-- The code as it is shown. -/
def text (code : Code) : String := "E" ++ code.number.repr

/-- The code that is shown as a text. -/
def ofText? (text : String) : Option Code := all.find? fun code => code.text == text

end Code

end PinQuery
