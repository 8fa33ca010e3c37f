import PinQuery.Diagnostic.Code
import PinQuery.Diagnostic.Excerpt

/-!
# Diagnostics

What is shown about a failure, whichever part of the program it comes from.
-/

namespace PinQuery

/-- A failure as it is shown: its code, the kind of error, a title, the message, what to do about
it, and where in the source it arose. -/
structure Diagnostic where
  code : Option Code
  category : Option String
  title : Option String
  message : String
  suggestion : Option String
  excerpt : Option Excerpt
deriving DecidableEq, Repr

/-- The diagnostic of a source that was read from a file. -/
def Diagnostic.withFilename (d : Diagnostic) (filename : Option String) : Diagnostic :=
  match filename with
  | none => d
  | some name => { d with excerpt := d.excerpt.map fun e => { e with filename := some name } }

end PinQuery
