import PinQuery.Main
import PinQuery.Text.Utf8
import PinQuery.Proofs.Query.Grammar
import PinQuery.Proofs.Query.Stage
import PinQuery.Proofs.Query.Acceptance
import PinQuery.Proofs.Decimal.Layout
import PinQuery.Proofs.Query.Shape
import PinQuery.Proofs.Number
import PinQuery.Proofs.Query.RoundTrip
import PinQuery.Proofs.Target.Expression
import PinQuery.Proofs.Pin
import PinQuery.Proofs.Plan.Analysis
import PinQuery.Proofs.Plan.Exactness
import PinQuery.Proofs.Plan.Translation
import PinQuery.Proofs.Target.Program
import PinQuery.Proofs.Target.Scope
import PinQuery.Proofs.Target.Parts
import PinQuery.Proofs.Plan.Offence
import PinQuery.Proofs.Token.Places
import PinQuery.Proofs.Query.Viability
import PinQuery.Proofs.Output.FileTree
import PinQuery.Proofs.Output.Storing
import PinQuery.Proofs.Output.Session
import PinQuery.Proofs.Plan.Meaning
import PinQuery.Proofs.Json
import PinQuery.Proofs.Plan.Document
import PinQuery.Proofs.CommandLine.Pipeline
import PinQuery.Proofs.Query.Spans
import PinQuery.Proofs.Checked
import PinQuery.Proofs.Token.Coverage
import PinQuery.Proofs.Plan.Negation
import PinQuery.Proofs.Diagnostic.Marking
import PinQuery.Proofs.Diagnostic.Positions
import PinQuery.Proofs.Diagnostic.Carets
import PinQuery.Proofs.Target.Behaviour
import PinQuery.Proofs.Token.Rules
import PinQuery.Proofs.Token.Longest
import PinQuery.Proofs.Token.Edits
import PinQuery.Proofs.Query.Alike
import PinQuery.Proofs.Query.Layout
import PinQuery.Proofs.Query.Expectation
import PinQuery.Proofs.Plan.Checks
import PinQuery.Proofs.Plan.Suggestion
import PinQuery.Proofs.Query.Parentheses
import PinQuery.Proofs.Query.Locality
import PinQuery.Proofs.Query.Faithful
import PinQuery.Proofs.Text.Distance
import PinQuery.Proofs.Text.Nearest
import PinQuery.Proofs.Pin.Usage
import PinQuery.Proofs.Plan.NearMiss
import PinQuery.Proofs.Token.Digits
import PinQuery.Proofs.Query.Literals
import PinQuery.Proofs.Query.Integers
import PinQuery.Proofs.Pin.Table
import PinQuery.Proofs.Diagnostic.Colours
import PinQuery.Proofs.Decimal.Clamp
import PinQuery.Proofs.Target.Characters
import PinQuery.Proofs.Target.Timing
import PinQuery.Proofs.Target.Listing
