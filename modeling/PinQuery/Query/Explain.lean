import PinQuery.Diagnostic.Advice
import PinQuery.Diagnostic.Basic
import PinQuery.Query.SyntaxError

/-!
# Diagnostics of syntax errors

A syntax error is shown where it arose; a parenthesis that is never closed is shown itself. The
suggestion is advice on the text under the error, if there is any, else the advice on the cause.
-/

namespace PinQuery.SyntaxError

/-- The span that is shown. -/
def shownSpan (error : SyntaxError) : Span :=
  match error.cause with
  | .unclosedParen opening => opening
  | _ => error.span

/-- The text under the error; nothing if the span is not inside the source. -/
def offending (error : SyntaxError) (source : String) : String :=
  String.ofList ((Text.slice? error.span source.toList).getD [])

/-- What can be done about the error. -/
def suggestion? (error : SyntaxError) (source : String) : Option String :=
  let text := error.offending source
  Advice.forWord? text <|> Advice.forOperator? text <|> error.cause.advice?

/-- The diagnostic of a syntax error in a source. -/
def diagnostic (error : SyntaxError) (source : String) : Diagnostic where
  code := error.cause.code
  category := category
  title := error.cause.title
  message := error.cause.message
  suggestion := error.suggestion? source
  excerpt := some ⟨none, source, error.shownSpan⟩

end PinQuery.SyntaxError
