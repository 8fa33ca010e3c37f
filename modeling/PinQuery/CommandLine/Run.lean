import PinQuery.CommandLine.Arguments
import PinQuery.Compile
import PinQuery.Diagnostic.Report
import PinQuery.Plan.Document

/-!
# Runs of the command line

A run takes the arguments and a file tree to an exit code, the texts of both output streams and a
file tree. A query is read, planned, shown as JSON if asked for, rendered, and written to the output
file. The file tree changes only if all of this succeeds.
-/

namespace PinQuery.CommandLine

/-- The name and version of the program. -/
def versionText : String := "rossoc 0.3.0"

/-- What a run leaves behind. -/
structure Outcome where
  code : Nat
  stdout : String
  stderr : String
  tree : FileTree

/-- A run that succeeds and prints a text. -/
def printed (tree : FileTree) (text : String) : Outcome := ⟨0, text, "", tree⟩

/-- The query text that the options name. -/
def readQuery (options : QueryOptions) (tree : FileTree) : Except String String :=
  match options.input, options.file with
  | some text, _ => .ok text
  | none, some path =>
    (tree.readText path).mapError fun failure =>
      "Error: Failed to read " ++ path ++ ": " ++ failure.message ++ "\n"
  | none, none => .ok ""

/-- Render a plan and write the program. -/
def emit (options : QueryOptions) (tree : FileTree) (plan : Plan) : Except CompileError FileTree :=
  let (generated, output) := (Output.new .builtin).generate plan
  match generated with
  | .error error => .error (.output error)
  | .ok _ => (output.write tree options.output options.force).mapError .output

/-- The text that is shown for an error in a source. -/
def failureText (options : QueryOptions) (colours : Bool) (source : String) (error : CompileError) :
    String :=
  let diagnostic := (error.diagnostic source).withFilename options.file
  diagnostic.report { ReportConfig.full with colours } ++ "\n"

/-- A `query` command. -/
def runQuery (options : QueryOptions) (colours : Bool) (tree : FileTree) : Outcome :=
  match readQuery options tree with
  | .error message => ⟨1, "", message, tree⟩
  | .ok source =>
    match planSource Registry.builtin.names source with
    | .error error => ⟨1, "", failureText options colours source error, tree⟩
    | .ok (_, plan) =>
      let stdout := if options.ir then plan.document.indented ++ "\n" else ""
      match emit options tree plan with
      | .error error => ⟨1, stdout, failureText options colours source error, tree⟩
      | .ok tree => ⟨0, stdout, "", tree⟩

/-- The targets, one a line, with the extensions of their files. -/
def targetsText : String :=
  unlines (Registry.builtin.renderers.map fun renderer =>
    renderer.name ++ "\t." ++ renderer.extension)

/-- A run. `noColor` is the value of the variable that switches colours off unless it is empty. -/
def run (noColor : Option String) (arguments : List String) (tree : FileTree) : Outcome :=
  match Arguments.parse arguments with
  | .error error => ⟨2, "", "error: " ++ error.message ++ "\n", tree⟩
  | .ok .showVersion => printed tree (versionText ++ "\n")
  | .ok (.run invocation) =>
    match invocation.command with
    | .targets => printed tree targetsText
    | .version => printed tree (versionText ++ "\n")
    | .query options =>
      let colours := !invocation.noColor && (noColor.getD "").isEmpty
      runQuery options colours tree

end PinQuery.CommandLine
