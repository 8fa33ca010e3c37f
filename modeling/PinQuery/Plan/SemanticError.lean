import PinQuery.Diagnostic.Basic
import PinQuery.Pin
import PinQuery.Text.Distance

/-!
# Semantic errors

A query can be well formed and still name a pin or a target that does not exist, or have a
condition that is not supported.
-/

namespace PinQuery

/-- Why a query cannot be planned. -/
inductive SemanticError
  /-- The board has no pin of this name. -/
  | unknownColumn (name : String) (span : Span)
  /-- The target is none of the known ones, which are listed in order. -/
  | unknownTarget (name : String) (span : Span) (known : List String)
  /-- The node is no condition. -/
  | unsupported (text : String) (span : Span)
deriving DecidableEq, Repr

namespace SemanticError

/-- The kind of error in a report. -/
def category : String := "SemanticError"

/-- The code of an error. -/
def code : SemanticError → Code
  | .unknownColumn _ _ => .unknownColumn
  | .unknownTarget _ _ _ => .unknownTarget
  | .unsupported _ _ => .unsupportedExpression

/-- Where an error arose. -/
def span : SemanticError → Span
  | .unknownColumn _ span => span
  | .unknownTarget _ span _ => span
  | .unsupported _ span => span

/-- What is said about an error. -/
def message : SemanticError → String
  | .unknownColumn name _ => "Unknown column '" ++ name ++ "'"
  | .unknownTarget name _ _ => "Unknown target '" ++ name ++ "'"
  | .unsupported text _ => "Unsupported expression: " ++ text

/-- The question after a name that is close to a known one. -/
def didYouMean (name : String) : String := "Did you mean '" ++ name ++ "'?"

/-- What can be done about an error: the closest known name, or the names there are. -/
def suggestion : SemanticError → String
  | .unknownColumn name _ =>
    match Text.closest? name Pin.names with
    | some pin => didYouMean pin
    | none => "Pins are named din0..din20 and ain0..ain20"
  | .unknownTarget name _ known =>
    match Text.closest? name known with
    | some target => didYouMean target
    | none => "Known targets: " ++ ", ".intercalate known
  | .unsupported _ _ => "NOT may only wrap a comparison or a parenthesised condition"

/-- The diagnostic of an error in a source. -/
def diagnostic (error : SemanticError) (source : String) : Diagnostic where
  code := error.code
  category := category
  title := none
  message := error.message
  suggestion := error.suggestion
  excerpt := some ⟨none, source, error.span⟩

end SemanticError

end PinQuery
