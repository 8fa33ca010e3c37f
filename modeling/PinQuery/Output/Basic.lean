import PinQuery.Diagnostic.Basic
import PinQuery.Output.FileTree
import PinQuery.Target.Registry

/-!
# Output

`Output` keeps the program that was generated last until it is written to a file.

* `Output.generate` renders a plan. What was generated before is dropped, also when it fails.
* `Output.write` stores the program in a file tree. The checks come in a fixed order: there has to
  be a program, a path, nothing at the path unless it may be replaced, and a place to store it.
-/

namespace PinQuery

/-- Why a program cannot be generated or written. -/
inductive OutputError
  /-- No renderer has this name. -/
  | unknownTarget (name : String)
  /-- No path was given. -/
  | noPath
  /-- Something stands at the path. -/
  | fileExists (path : String)
  /-- Nothing was generated. -/
  | noContent
  /-- The file system refused. -/
  | failed (failure : FileFailure)
deriving DecidableEq, Repr

namespace OutputError

/-- The kind of error in a report. -/
def category : String := "BackendError"

/-- The code of an error. -/
def code : OutputError → Code
  | .unknownTarget _ => .unregisteredTarget
  | .noPath => .noOutputPath
  | .fileExists _ => .fileExists
  | .noContent => .noContent
  | .failed _ => .ioFailure

/-- What is said about an error. -/
def message : OutputError → String
  | .unknownTarget name => "Unknown target '" ++ name ++ "'"
  | .noPath => "No output file"
  | .fileExists path => "Output file already exists: " ++ path
  | .noContent => "No content"
  | .failed failure => "IO error: " ++ failure.message

/-- What can be done about an error. -/
def suggestion? : OutputError → Option String
  | .noPath => some "Pass an output path with -o <file>"
  | .fileExists _ => some "Use --force to replace the existing file"
  | _ => none

/-- The diagnostic of an error. -/
def diagnostic (error : OutputError) : Diagnostic where
  code := error.code
  category := category
  title := none
  message := error.message
  suggestion := error.suggestion?
  excerpt := none

end OutputError

/-- A registry, and the program that was generated last. -/
structure Output where
  registry : Registry
  content : Option String

namespace Output

/-- Nothing generated yet. -/
def new (registry : Registry) : Output := ⟨registry, none⟩

/-- The program of a plan, kept for writing. -/
def generate (output : Output) (plan : Plan) : Except OutputError String × Output :=
  match output.registry.get? plan.target with
  | none => (.error (.unknownTarget plan.target), { output with content := none })
  | some renderer =>
    let content := renderer.render plan
    (.ok content, { output with content := some content })

/-- The tree with the generated program at a path. -/
def write (output : Output) (tree : FileTree) (path : Option String) (overwrite : Bool) :
    Except OutputError FileTree :=
  match output.content, path with
  | none, _ => .error .noContent
  | some _, none => .error .noPath
  | some content, some path =>
    if path.isEmpty then .error .noPath
    else if !overwrite && tree.contains path then .error (.fileExists path)
    else
      match tree.store path content.toUTF8 overwrite with
      | .ok tree => .ok tree
      | .error .exists_ => .error (.fileExists path)
      | .error (.failed failure) => .error (.failed failure)

end Output

end PinQuery
