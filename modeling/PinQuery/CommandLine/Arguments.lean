/-!
# Command-line arguments

    query (-i TEXT | -f FILE) [-o FILE] [--force] [--ir]    compile a query
    targets                                                 list the targets
    version                                                 show the version

`-v`, `--verbose` and `--no-color` may stand before and after the command, `-V` and `--version`
before it. A value may be attached to its option (`-oFILE`, `-o=FILE`, `--output=FILE`) or follow
it; one that follows may not look like an option. No option may be given twice on one side of the
command.

`Arguments.parse` reads the arguments from left to right and stops at the first fault.
-/

namespace PinQuery

/-- Why arguments are refused. -/
inductive UsageError
  | unknownArgument (text : String)
  | missingValue (name : String)
  | unwantedValue (name : String)
  | emptyValue (name : String)
  | repeated (name : String)
  | missingCommand
  | missingQuery
  | twoQueries
deriving DecidableEq, Repr

/-- What is said about a fault. -/
def UsageError.message : UsageError → String
  | .unknownArgument text => "unexpected argument '" ++ text ++ "'"
  | .missingValue name => "a value is required for '--" ++ name ++ "'"
  | .unwantedValue name => "'--" ++ name ++ "' takes no value"
  | .emptyValue name => "a value is required for '--" ++ name ++ "' but none was supplied"
  | .repeated name => "the argument '--" ++ name ++ "' cannot be used multiple times"
  | .missingCommand => "a command is required: query, targets or version"
  | .missingQuery => "a query is required: --input <TEXT> or --file <FILE>"
  | .twoQueries => "'--input' cannot be used with '--file'"

/-- The options of a `query` command. -/
structure QueryOptions where
  input : Option String
  file : Option String
  output : Option String
  force : Bool
  ir : Bool
deriving DecidableEq, Repr

/-- The commands. -/
inductive Command
  | query (options : QueryOptions)
  | targets
  | version
deriving DecidableEq, Repr

/-- A command, and whether colours were switched off. -/
structure Invocation where
  command : Command
  noColor : Bool
deriving DecidableEq, Repr

namespace Arguments

/-- The options without a value. -/
inductive Switch
  | verbose
  | noColor
  | version
  | force
  | ir
deriving DecidableEq, Repr

/-- The options with a value. -/
inductive Field
  | input
  | file
  | output
deriving DecidableEq, Repr

/-- The part of the arguments: before the command, or after one. -/
inductive Part
  | start
  | query
  | targets
  | version
deriving DecidableEq, Repr

/-- The long name of a switch. -/
def Switch.name : Switch → String
  | .verbose => "verbose"
  | .noColor => "no-color"
  | .version => "version"
  | .force => "force"
  | .ir => "ir"

/-- The letter of a switch. -/
def Switch.letter? : Switch → Option Char
  | .verbose => some 'v'
  | .version => some 'V'
  | _ => none

/-- The long name of a field. -/
def Field.name : Field → String
  | .input => "input"
  | .file => "file"
  | .output => "output"

/-- The letter of a field. -/
def Field.letter : Field → Char
  | .input => 'i'
  | .file => 'f'
  | .output => 'o'

/-- The switches of a part. -/
def Part.switches : Part → List Switch
  | .start => [.verbose, .noColor, .version]
  | .query => [.verbose, .noColor, .force, .ir]
  | .targets => [.verbose, .noColor]
  | .version => [.verbose, .noColor]

/-- The fields of a part. -/
def Part.fields : Part → List Field
  | .query => [.input, .file, .output]
  | _ => []

/-- The part that a command opens. -/
def Part.ofCommand? : String → Option Part
  | "query" => some .query
  | "targets" => some .targets
  | "version" => some .version
  | _ => none

/-- What was given so far in one part. -/
structure Given where
  switches : List Switch
  fields : List (Field × String)
deriving DecidableEq, Repr

namespace Given

/-- Nothing was given. -/
def none : Given := ⟨[], []⟩

/-- The value of a field. -/
def value? (given : Given) (field : Field) : Option String := given.fields.lookup field

/-- One more switch. -/
def addSwitch (given : Given) (switch : Switch) : Except UsageError Given :=
  if switch ∈ given.switches then .error (.repeated switch.name)
  else .ok { given with switches := switch :: given.switches }

/-- One more field. Paths may not be empty. -/
def addField (given : Given) (field : Field) (value : String) : Except UsageError Given :=
  if (given.value? field).isSome then .error (.repeated field.name)
  else if value.isEmpty && field ≠ .input then .error (.emptyValue field.name)
  else .ok { given with fields := (field, value) :: given.fields }

end Given

/-! ## One argument -/

/-- What an argument is. -/
inductive Argument
  /-- A long option and its attached value. -/
  | long (name : String) (value : Option String)
  /-- Letters behind one dash. -/
  | letters (letters : List Char)
  /-- The end of the options. -/
  | endOfOptions
  /-- Any other text. -/
  | plain (text : String)
deriving DecidableEq, Repr

/-- What an argument is. A single dash is plain text. -/
def Argument.ofText (text : String) : Argument :=
  match text.toList with
  | ['-', '-'] => .endOfOptions
  | '-' :: '-' :: cs =>
    let name := String.ofList (cs.takeWhile (· != '='))
    match cs.dropWhile (· != '=') with
    | [] => .long name none
    | _ :: value => .long name (some (String.ofList value))
  | '-' :: c :: cs => .letters (c :: cs)
  | _ => .plain text

/-- Whether a text can follow an option as its value. -/
def isValue (text : String) : Bool :=
  match Argument.ofText text with
  | .plain _ => true
  | _ => false

/-- What an argument with options leaves to do. -/
inductive Effect
  /-- Go on with the next argument. -/
  | continue_ (given : Given)
  /-- Take the next argument as the value of a field. -/
  | takeValue (given : Given) (field : Field)
  /-- Show the version, whatever follows. -/
  | showVersion
deriving DecidableEq, Repr

/-- The effect of a switch. -/
def switchEffect (given : Given) (switch : Switch) : Except UsageError Effect :=
  if switch = .version then .ok .showVersion else (given.addSwitch switch).map .continue_

/-- The effect of a long option. -/
def longEffect (part : Part) (given : Given) (name : String) (value : Option String) :
    Except UsageError Effect :=
  match part.switches.find? (·.name == name), part.fields.find? (·.name == name), value with
  | some switch, _, none => switchEffect given switch
  | some switch, _, some _ => .error (.unwantedValue switch.name)
  | none, some field, none => .ok (.takeValue given field)
  | none, some field, some value => (given.addField field value).map .continue_
  | none, none, _ => .error (.unknownArgument ("--" ++ name))

/-- A value attached to a letter, without an equals sign in front. -/
def attached : List Char → String
  | '=' :: value => String.ofList value
  | value => String.ofList value

/-- The effect of letters behind one dash: switches, then at most one field, which takes the rest as
its value. -/
def lettersEffect (part : Part) (given : Given) : List Char → Except UsageError Effect
  | [] => .ok (.continue_ given)
  | letter :: letters =>
    match part.switches.find? (·.letter? == some letter),
      part.fields.find? (·.letter == letter), letters with
    | some switch, _, _ => do
      match ← switchEffect given switch with
      | .continue_ given => lettersEffect part given letters
      | effect => return effect
    | none, some field, [] => .ok (.takeValue given field)
    | none, some field, value => (given.addField field (attached value)).map .continue_
    | none, none, _ => .error (.unknownArgument (String.ofList ['-', letter]))

/-! ## All arguments -/

/-- What arguments ask for. -/
inductive Parsed
  | showVersion
  | run (invocation : Invocation)
deriving DecidableEq, Repr

/-- The command of a part that was read to its end. -/
def finish (part : Part) (given : Given) : Except UsageError Command :=
  match part with
  | .start => .error .missingCommand
  | .targets => .ok .targets
  | .version => .ok .version
  | .query =>
    match given.value? .input, given.value? .file with
    | none, none => .error .missingQuery
    | some _, some _ => .error .twoQueries
    | input, file =>
      .ok (.query ⟨input, file, given.value? .output, .force ∈ given.switches,
        .ir ∈ given.switches⟩)

/-- Read the arguments of a part; `noColor` tells whether colours were switched off before it. -/
def readPart (part : Part) (noColor : Bool) (given : Given) : List String → Except UsageError Parsed
  | [] => do
    let command ← finish part given
    return .run ⟨command, noColor || .noColor ∈ given.switches⟩
  | text :: rest => do
    match Argument.ofText text with
    | .plain _ =>
      match part, Part.ofCommand? text with
      | .start, some next => readPart next (.noColor ∈ given.switches) .none rest
      | _, _ => .error (.unknownArgument text)
    | .endOfOptions =>
      match rest with
      | [] => readPart part noColor given []
      | next :: _ => .error (.unknownArgument next)
    | argument =>
      let effect ← match argument with
        | .long name value => longEffect part given name value
        | .letters letters => lettersEffect part given letters
        | _ => .error (.unknownArgument text)
      match effect, rest with
      | .showVersion, _ => return .showVersion
      | .continue_ given, rest => readPart part noColor given rest
      | .takeValue _ field, [] => .error (.missingValue field.name)
      | .takeValue given field, value :: rest =>
        if isValue value then readPart part noColor (← given.addField field value) rest
        else .error (.missingValue field.name)
termination_by arguments => arguments.length

/-- What arguments ask for. -/
def parse (arguments : List String) : Except UsageError Parsed :=
  readPart .start false .none arguments

end Arguments

end PinQuery
