import PinQuery.Output.Basic
import PinQuery.Plan.Analysis
import PinQuery.Query.Explain
import PinQuery.Query.Reader

/-!
# Compiling

A source is read, planned and rendered by the renderer that its query names.
-/

namespace PinQuery

/-- Why a source cannot be compiled. -/
inductive CompileError
  | reading (error : SyntaxError)
  | planning (error : SemanticError)
  | output (error : OutputError)
deriving DecidableEq, Repr

namespace CompileError

/-- The code of an error. -/
def code : CompileError → Code
  | .reading error => error.cause.code
  | .planning error => error.code
  | .output error => error.code

/-- The error in one line. -/
def describe : CompileError → String
  | .reading error => error.describe
  | .planning error => error.message
  | .output error => error.message

/-- The diagnostic of an error in a source. -/
def diagnostic (error : CompileError) (source : String) : Diagnostic :=
  match error with
  | .reading error => error.diagnostic source
  | .planning error => error.diagnostic source
  | .output error => error.diagnostic

end CompileError

/-- The plan of a source for one of the known targets. -/
def planSource (known : OrderedSet String) (source : String) :
    Except CompileError (Query × Plan) := do
  let query ← (Query.parse source).mapError .reading
  let plan ← (Plan.ofQuery known query).mapError .planning
  return (query, plan)

/-- A query, its plan and its program. -/
structure Compiled where
  query : Query
  plan : Plan
  content : String

/-- The program of a source. -/
def compile (registry : Registry) (source : String) : Except CompileError Compiled := do
  let (query, plan) ← planSource registry.names source
  match registry.get? plan.target with
  | some renderer => return ⟨query, plan, renderer.render plan⟩
  | none => .error (.output (.unknownTarget plan.target))

end PinQuery
