import PinQuery.Proofs.Plan.Translation
import PinQuery.Proofs.Text.Split
import PinQuery.Target.Script
import PinQuery.Target.Sketch
import PinQuery.Text.Line

/-!
# What programs do

The lines of a program, read as statements.

* A `Dialect` says how the statements of a language are written, `sketch` and `script` are the two
  languages of programs.
* `Dialect.statements` are the statements of a program text, in the order of its lines.
* `ProgramParts` are the parts that every program has, whatever its language.
* `Sketch.filterMap_lines` and `Script.filterMap_lines`: the lines of the program of a plan are the
  statements of its parts.
-/

namespace PinQuery

open Text

/-! ## Lines -/

/-- A text without a line feed. -/
def IsLine (text : String) : Prop := '\n' ∉ text.toList

instance (text : String) : Decidable (IsLine text) := inferInstanceAs (Decidable (¬ _))

theorem IsLine.append {s t : String} (hs : IsLine s) (ht : IsLine t) : IsLine (s ++ t) := by
  simp_all [IsLine]

theorem IsLine.enclose {head text tail : String} (h : IsLine text) (hhead : IsLine head)
    (htail : IsLine tail) : IsLine (head ++ text ++ tail) :=
  (hhead.append h).append htail

theorem isLine_intercalate {separator : String} (hseparator : IsLine separator)
    {texts : List String} (h : ∀ text ∈ texts, IsLine text) :
    IsLine (separator.intercalate texts) := by
  induction texts with
  | nil => exact List.not_mem_nil
  | cons text texts ih =>
    cases texts with
    | nil => simpa using h text (by simp)
    | cons next texts =>
      rw [String.intercalate_cons_cons]
      exact ((h text (by simp)).append hseparator).append (ih fun t ht => h t (by simp_all))

/-- The lines of a text are those of the texts that it was put together from. -/
theorem split_unlines_eq_flatMap (lines : List String) :
    split '\n' (unlines lines).toList =
      lines.flatMap (fun line => split '\n' line.toList) ++ [[]] := by
  induction lines with
  | nil => rfl
  | cons line lines ih =>
    have htext : (unlines (line :: lines)).toList =
        line.toList ++ '\n' :: (unlines lines).toList := by
      simp [unlines]
    rw [htext, split_append, ih, List.flatMap_cons, List.append_assoc]

theorem flatMap_split_of_isLine {lines : List String} (h : ∀ line ∈ lines, IsLine line) :
    lines.flatMap (fun line => split '\n' line.toList) = lines.map String.toList := by
  rw [List.map_eq_flatMap]
  exact List.flatMap_congr fun line hline => split_of_not_mem (h line hline)

/-- Lines without line feeds are found again in the text that they form. -/
theorem split_unlines {lines : List String} (h : ∀ line ∈ lines, IsLine line) :
    split '\n' (unlines lines).toList = lines.map String.toList ++ [[]] := by
  rw [split_unlines_eq_flatMap, flatMap_split_of_isLine h]

/-- What follows a text, if another one begins with it. -/
def after? : List Char → List Char → Option (List Char)
  | [], cs => some cs
  | _ :: _, [] => none
  | h :: head, c :: cs => if h == c then after? head cs else none

@[simp] theorem after?_append (head rest : List Char) : after? head (head ++ rest) = some rest := by
  induction head with
  | nil => rfl
  | cons h head ih => simp [after?, ih]

/-- What stands between a head and a tail. -/
def inside? (head tail line : List Char) : Option (List Char) :=
  (after? head line).bind fun rest => (after? tail.reverse rest.reverse).map List.reverse

@[simp] theorem inside?_append (head middle tail : List Char) :
    inside? head tail (head ++ (middle ++ tail)) = some middle := by
  simp [inside?]

/-! ## Statements -/

/-- A variable that gets the value of a call with one argument. -/
structure Reading where
  var : String
  function : String
  argument : String
deriving DecidableEq, Repr

/-- What a line of a program does: make a pin an input, begin the loop, read a pin into a variable,
test a condition, or print variables. -/
inductive Statement
  | mode (index : String)
  | loop
  | read (reading : Reading)
  | test (condition : String)
  | print (vars : List String)
deriving DecidableEq, Repr

/-- How statements are written in a language. -/
structure Dialect where
  modeHead : String
  modeTail : String
  loopLine : String
  testHead : String
  testTail : String
  readHead : String
  readTail : String
  printHeads : List String
  printTail : String

namespace Dialect

/-- The statements of sketches. -/
def sketch : Dialect where
  modeHead := "  pinMode("
  modeTail := ", INPUT);"
  loopLine := "void loop() \x7b"
  testHead := "  if ("
  testTail := ") \x7b"
  readHead := "  int "
  readTail := ");"
  printHeads := ["    Serial.print(", "    Serial.println("]
  printTail := ");"

/-- The statements of scripts. -/
def script : Dialect where
  modeHead := "pinMode("
  modeTail := ", INPUT)"
  loopLine := "loop do"
  testHead := "  if "
  testTail := ""
  readHead := "  "
  readTail := ")"
  printHeads := ["    Serial.println(["]
  printTail := "].join(','))"

variable (dialect : Dialect)

/-- A line that makes a pin an input. -/
def mode? (line : List Char) : Option Statement :=
  (inside? dialect.modeHead.toList dialect.modeTail.toList line).map fun index =>
    .mode (String.ofList index)

/-- The line that begins the loop. -/
def loop? (line : List Char) : Option Statement :=
  match after? dialect.loopLine.toList line with
  | some [] => some .loop
  | _ => none

/-- The line that tests the condition. -/
def test? (line : List Char) : Option Statement :=
  (inside? dialect.testHead.toList dialect.testTail.toList line).map fun condition =>
    .test (String.ofList condition)

/-- A line that gives a variable the value of a call with one argument. -/
def read? (line : List Char) : Option Statement := do
  let inner ← inside? dialect.readHead.toList dialect.readTail.toList line
  let call ← after? [' ', '=', ' '] (inner.dropWhile Scan.isWordPart)
  let argument ← after? ['('] (call.dropWhile Scan.isWordPart)
  return .read ⟨String.ofList (inner.takeWhile Scan.isWordPart),
    String.ofList (call.takeWhile Scan.isWordPart), String.ofList argument⟩

/-- The names in a text: its longest stretches of letters, digits and underscores. -/
def namesIn (cs : List Char) : List String :=
  ((cs.splitOnP fun c => !Scan.isWordPart c).filter (· ≠ [])).map String.ofList

/-- A line that prints variables. -/
def print? (line : List Char) : Option Statement :=
  (dialect.printHeads.findSome? fun head =>
    inside? head.toList dialect.printTail.toList line).map fun inner => .print (namesIn inner)

/-- What a line does, if it does one of these. -/
def statement? (line : List Char) : Option Statement :=
  (dialect.mode? line).or ((dialect.loop? line).or ((dialect.test? line).or
    ((dialect.read? line).or (dialect.print? line))))

/-- What the lines of a program do. -/
def statements (program : String) : List Statement :=
  (split '\n' program.toList).filterMap dialect.statement?

end Dialect

/-! ## Lines of programs -/

theorem filterMap_map_of_some {α β γ : Type} {f : α → β} {g : β → Option γ} {h : α → γ} {l : List α}
    (hg : ∀ x ∈ l, g (f x) = some (h x)) : (l.map f).filterMap g = l.map h := by
  induction l with
  | nil => rfl
  | cons x l ih =>
    rw [List.map_cons, List.filterMap_cons_some (hg x (by simp)),
      ih fun y hy => hg y (by simp [hy]), List.map_cons]

/-- The name of a pin consists of letters and digits. -/
theorem Pin.isWordPart_of_mem_name (pin : Pin) :
    ∀ c ∈ pin.name.toList, Scan.isWordPart c = true := by
  obtain ⟨c, tail, hname, hc, htail⟩ := pin.exists_word
  rw [hname]
  intro d hd
  rcases List.mem_cons.1 hd with rfl | hd
  · exact Scan.isWordPart_of_isWordStart hc
  · exact htail d hd

theorem Pin.toList_name_ne_nil (pin : Pin) : pin.name.toList ≠ [] := by
  obtain ⟨c, tail, hname, -, -⟩ := pin.exists_word
  simp [hname]

theorem PinKind.isWordPart_readFunction (kind : PinKind) :
    ∀ c ∈ kind.readFunction.toList, Scan.isWordPart c = true := by
  cases kind <;> exact List.all_eq_true.1 rfl

/-- How a pin is read. -/
def Pin.reading (pin : Pin) : Reading := ⟨pin.name, pin.kind.readFunction, pin.index.repr⟩

namespace Dialect

section

variable {dialect : Dialect} {line : List Char}

theorem statement?_of_mode {index : String}
    (hline : line = dialect.modeHead.toList ++ (index.toList ++ dialect.modeTail.toList)) :
    dialect.statement? line = some (.mode index) := by
  have hmode : dialect.mode? line = some (.mode index) := by
    rw [hline, mode?, inside?_append, Option.map_some, String.ofList_toList]
  rw [statement?, hmode, Option.some_or]

/-- A line without an equals sign behind its first word reads nothing. -/
theorem read?_eq_none {inner : List Char}
    (hline : line = dialect.readHead.toList ++ (inner ++ dialect.readTail.toList))
    (hafter : after? [' ', '=', ' '] (inner.dropWhile Scan.isWordPart) = none) :
    dialect.read? line = none := by
  simp only [hline, read?, inside?_append, Option.bind_eq_bind, Option.bind_some, hafter,
    Option.bind_none]

variable (hmode : dialect.mode? line = none) (hloop : dialect.loop? line = none)
include hmode hloop

theorem statement?_of_test {condition : String}
    (hline : line = dialect.testHead.toList ++ (condition.toList ++ dialect.testTail.toList)) :
    dialect.statement? line = some (.test condition) := by
  have htest : dialect.test? line = some (.test condition) := by
    rw [hline, test?, inside?_append, Option.map_some, String.ofList_toList]
  rw [statement?, hmode, hloop, htest, Option.none_or, Option.none_or, Option.some_or]

variable (htest : dialect.test? line = none)
include htest

theorem statement?_of_read {pin : Pin}
    (hline : line = dialect.readHead.toList ++ ((pin.name.toList ++ ' ' :: '=' :: ' ' ::
      (pin.kind.readFunction.toList ++ '(' :: pin.index.repr.toList)) ++
        dialect.readTail.toList)) :
    dialect.statement? line = some (.read pin.reading) := by
  have hvar := pin.isWordPart_of_mem_name
  have hfunction := pin.kind.isWordPart_readFunction
  have hparen : Breaks Scan.isWordPart ('(' :: pin.index.repr.toList) := by
    rw [breaks_cons]
    rfl
  have hequals : Breaks Scan.isWordPart (' ' :: '=' :: ' ' ::
      (pin.kind.readFunction.toList ++ '(' :: pin.index.repr.toList)) := by
    rw [breaks_cons]
    rfl
  have hread : dialect.read? line = some (.read pin.reading) := by
    simp only [hline, read?, inside?_append, Option.bind_eq_bind, Option.bind_some,
      takeWhile_append_of_breaks hvar hequals, dropWhile_append_of_breaks hvar hequals, after?,
      beq_self_eq_true, if_true, takeWhile_append_of_breaks hfunction hparen,
      dropWhile_append_of_breaks hfunction hparen, Option.pure_def, String.ofList_toList,
      Pin.reading]
  rw [statement?, hmode, hloop, htest, hread]
  rfl

variable (hread : dialect.read? line = none)
include hread

theorem statement?_eq_print? : dialect.statement? line = dialect.print? line := by
  rw [statement?, hmode, hloop, htest, hread]
  rfl

end

/-! ### Names in a text -/

theorem namesIn_append_cons {c : Char} (hc : Scan.isWordPart c = false) (cs ds : List Char) :
    namesIn (cs ++ c :: ds) = namesIn cs ++ namesIn ds := by
  have hsplit : (cs ++ c :: ds).splitOnP (fun c => !Scan.isWordPart c) =
      cs.splitOnP (fun c => !Scan.isWordPart c) ++ ds.splitOnP (fun c => !Scan.isWordPart c) :=
    List.splitOnP_append_cons cs ds (by simp [hc])
  simp [namesIn, hsplit]

theorem namesIn_word {word : List Char} (hword : ∀ c ∈ word, Scan.isWordPart c = true)
    (hne : word ≠ []) : namesIn word = [String.ofList word] := by
  have hsplit : word.splitOnP (fun c => !Scan.isWordPart c) = [word] :=
    List.splitOnP_eq_singleton fun c hc => by simp [hword c hc]
  simp [namesIn, hsplit, hne]

theorem namesIn_name (pin : Pin) : namesIn pin.name.toList = [pin.name] := by
  rw [namesIn_word pin.isWordPart_of_mem_name pin.toList_name_ne_nil, String.ofList_toList]

/-- The names in a list of names, commas between them, are those of the list. -/
theorem namesIn_intercalate {names : List String}
    (h : ∀ name ∈ names, namesIn name.toList = [name]) :
    namesIn (", ".intercalate names).toList = names := by
  induction names with
  | nil => rfl
  | cons name names ih =>
    obtain ⟨hname, hnames⟩ := List.forall_mem_cons.1 h
    cases names with
    | nil => simpa using hname
    | cons next names =>
      have htext : (", ".intercalate (name :: next :: names)).toList =
          name.toList ++ ',' :: ' ' :: (", ".intercalate (next :: names)).toList := by
        simp [String.intercalate_cons_cons]
      have hspace (cs : List Char) : namesIn (' ' :: cs) = namesIn cs :=
        namesIn_append_cons rfl [] cs
      rw [htext, namesIn_append_cons rfl, hspace, ih hnames, hname]
      rfl

end Dialect

/-- The parts of a program: the pins that are made inputs, the readings of one round, the condition
and the variables that are printed when it holds, step by step. -/
structure ProgramParts where
  modes : List String
  readings : List Reading
  condition : String
  vars : List (List String)
deriving DecidableEq, Repr

/-- The statements of a program: inputs are set before the loop, and pins are read in the loop
before the condition is tested. -/
def ProgramParts.statements (parts : ProgramParts) : List Statement :=
  parts.modes.map .mode ++ .loop ::
    (parts.readings.map .read ++ .test parts.condition :: parts.vars.map .print)

/-- The parts of the program of a plan. -/
def Plan.parts (plan : Plan) (vars : List (List String)) : ProgramParts where
  modes := plan.pins.digitalIn.toList.map Nat.repr
  readings := plan.reads.map Pin.reading
  condition := plan.condition.text
  vars := vars

/-! ### Sketches -/

namespace Sketch

open Dialect

theorem statement?_modeLine (index : Nat) :
    sketch.statement? ("  pinMode(" ++ index.repr ++ ", INPUT);").toList = some (.mode index.repr) :=
  statement?_of_mode (by simp [sketch])

theorem filterMap_modeLines (plan : Plan) :
    ((modeLines plan).map String.toList).filterMap sketch.statement? =
      plan.pins.digitalIn.toList.map fun index => .mode index.repr := by
  rw [modeLines, List.map_map]
  exact filterMap_map_of_some fun index _ => statement?_modeLine index

theorem statement?_readLine (pin : Pin) :
    sketch.statement? ("  int " ++ pin.name ++ " = " ++ pin.readCall ++ ";").toList =
      some (.read pin.reading) := by
  have hline : ("  int " ++ pin.name ++ " = " ++ pin.readCall ++ ";").toList =
      sketch.readHead.toList ++ ((pin.name.toList ++ ' ' :: '=' :: ' ' ::
        (pin.kind.readFunction.toList ++ '(' :: pin.index.repr.toList)) ++
          sketch.readTail.toList) := by
    simp [Pin.readCall, sketch]
  rw [hline]
  exact statement?_of_read rfl rfl rfl rfl

theorem filterMap_readLines (plan : Plan) :
    ((readLines plan).map String.toList).filterMap sketch.statement? =
      plan.reads.map fun pin => .read pin.reading := by
  rw [readLines, List.map_map]
  exact filterMap_map_of_some fun pin _ => statement?_readLine pin

theorem statement?_testLine (condition : String) :
    sketch.statement? ("  if (" ++ condition ++ ") \x7b").toList = some (.test condition) := by
  have hline : ("  if (" ++ condition ++ ") \x7b").toList =
      sketch.testHead.toList ++ (condition.toList ++ sketch.testTail.toList) := by
    simp [sketch]
  rw [hline]
  exact statement?_of_test rfl rfl rfl

theorem statement?_printLine (inner : String) :
    sketch.statement? ("    Serial.print(" ++ inner ++ ");").toList =
      some (.print (namesIn inner.toList)) := by
  have hline : ("    Serial.print(" ++ inner ++ ");").toList =
      "    Serial.print(".toList ++ (inner.toList ++ sketch.printTail.toList) := by
    simp [sketch]
  have hheads : sketch.printHeads = ["    Serial.print(", "    Serial.println("] := rfl
  rw [hline, statement?_eq_print? rfl rfl rfl rfl, print?, hheads, List.findSome?_cons,
    inside?_append]
  rfl

theorem statement?_printlnLine (inner : String) :
    sketch.statement? ("    Serial.println(" ++ inner ++ ");").toList =
      some (.print (namesIn inner.toList)) := by
  have hline : ("    Serial.println(" ++ inner ++ ");").toList =
      "    Serial.println(".toList ++ (inner.toList ++ sketch.printTail.toList) := by
    simp [sketch]
  have hheads : sketch.printHeads = ["    Serial.print(", "    Serial.println("] := rfl
  -- the shorter head does not fit
  have hprint : inside? "    Serial.print(".toList sketch.printTail.toList
      ("    Serial.println(".toList ++ (inner.toList ++ sketch.printTail.toList)) = none := rfl
  rw [hline, statement?_eq_print? rfl rfl rfl rfl, print?, hheads, List.findSome?_cons, hprint,
    List.findSome?_cons, inside?_append]
  rfl

/-- Sketches print variable by variable, with a comma in between. -/
theorem filterMap_printLines (pins : List Pin) : ∃ vars : List (List String),
    ((printLines (pins.map Pin.name)).map String.toList).filterMap sketch.statement? =
      vars.map .print ∧ vars.flatten = pins.map Pin.name := by
  induction pins with
  | nil => exact ⟨[[]], rfl, rfl⟩
  | cons pin pins ih =>
    cases pins with
    | nil =>
      refine ⟨[[pin.name]], ?_, rfl⟩
      simp only [List.map_cons, List.map_nil, printLines,
        List.filterMap_cons_some (statement?_printlnLine pin.name), namesIn_name]
      rfl
    | cons next pins =>
      obtain ⟨vars, hvars, hflatten⟩ := ih
      refine ⟨[pin.name] :: [] :: vars, ?_, by simpa using hflatten⟩
      have hcomma : sketch.statement? "    Serial.print(\",\");".toList = some (.print []) := rfl
      simp only [List.map_cons, printLines] at hvars ⊢
      rw [List.filterMap_cons_some (statement?_printLine pin.name),
        List.filterMap_cons_some hcomma, hvars, namesIn_name]

theorem filterMap_delayLines (plan : Plan) :
    ((delayLines plan).map String.toList).filterMap sketch.statement? = [] := by
  unfold delayLines
  split
  next milliseconds _ =>
    have hdelay : sketch.statement? ("  delay(" ++ milliseconds.repr ++ ");").toList = none := by
      rw [String.toList_append, String.toList_append]
      rfl
    rw [List.map_cons, List.filterMap_cons_none hdelay]
    rfl
  next => rfl

/-- The lines of a sketch do what the plan says. -/
theorem filterMap_lines (plan : Plan) : ∃ vars : List (List String),
    ((lines plan).map String.toList).filterMap sketch.statement? = (plan.parts vars).statements ∧
      vars.flatten = plan.prints.map Pin.name := by
  obtain ⟨vars, hvars, hflatten⟩ := filterMap_printLines plan.prints
  refine ⟨vars, ?_, hflatten⟩
  have hgenerated : sketch.statement?
      ("// Generated by rossoc (target: " ++ plan.target ++ ")").toList = none := by
    rw [String.toList_append, String.toList_append]
    rfl
  have hbegin : sketch.statement?
      ("  Serial.begin(" ++ plan.baudRate.repr ++ ");").toList = none := by
    rw [String.toList_append, String.toList_append]
    rfl
  have hempty : sketch.statement? "".toList = none := rfl
  have hsetup : sketch.statement? "void setup() \x7b".toList = none := rfl
  have hloop : sketch.statement? "void loop() \x7b".toList = some .loop := rfl
  have hclose : sketch.statement? "\x7d".toList = none := rfl
  have hclose' : sketch.statement? "  \x7d".toList = none := rfl
  simp only [lines, List.map_append, List.filterMap_append, List.map_cons, List.map_nil,
    List.filterMap_cons, List.filterMap_nil, hgenerated, hbegin, hempty, hsetup, hloop, hclose,
    hclose', statement?_testLine, filterMap_modeLines, filterMap_readLines, filterMap_delayLines,
    hvars]
  simp [ProgramParts.statements, Plan.parts, Function.comp_def]

end Sketch

/-! ### Scripts -/

namespace Script

open Dialect

theorem statement?_modeLine (index : Nat) :
    script.statement? ("pinMode(" ++ index.repr ++ ", INPUT)").toList = some (.mode index.repr) :=
  statement?_of_mode (by simp [script])

theorem filterMap_modeLines (plan : Plan) :
    ((modeLines plan).map String.toList).filterMap script.statement? =
      plan.pins.digitalIn.toList.map fun index => .mode index.repr := by
  rw [modeLines, List.map_map]
  exact filterMap_map_of_some fun index _ => statement?_modeLine index

theorem statement?_readLine (pin : Pin) :
    script.statement? ("  " ++ pin.name ++ " = " ++ pin.readCall).toList =
      some (.read pin.reading) := by
  have hline : ("  " ++ pin.name ++ " = " ++ pin.readCall).toList =
      script.readHead.toList ++ ((pin.name.toList ++ ' ' :: '=' :: ' ' ::
        (pin.kind.readFunction.toList ++ '(' :: pin.index.repr.toList)) ++
          script.readTail.toList) := by
    simp [Pin.readCall, script]
  -- no pin has a name that begins with an `i`
  have htest (rest : List Char) :
      script.test? (script.readHead.toList ++ (pin.name.toList ++ rest)) = none := by
    rw [Pin.toList_name, Pin.toList_stem]
    cases pin.kind <;> rfl
  rw [hline]
  exact statement?_of_read rfl rfl (by rw [List.append_assoc]; exact htest _) rfl

theorem filterMap_readLines (plan : Plan) :
    ((readLines plan).map String.toList).filterMap script.statement? =
      plan.reads.map fun pin => .read pin.reading := by
  rw [readLines, List.map_map]
  exact filterMap_map_of_some fun pin _ => statement?_readLine pin

theorem statement?_testLine (condition : String) :
    script.statement? ("  if " ++ condition).toList = some (.test condition) := by
  have hline : ("  if " ++ condition).toList =
      script.testHead.toList ++ (condition.toList ++ script.testTail.toList) := by
    simp [script]
  rw [hline]
  exact statement?_of_test rfl rfl rfl

theorem toList_printLine (names : List String) : (printLine names).toList =
    "    Serial.println([".toList ++
      ((", ".intercalate names).toList ++ script.printTail.toList) := by
  unfold printLine
  generalize ", ".intercalate names = text
  simp [script]

/-- Scripts print all variables at once. -/
theorem statement?_printLine (pins : List Pin) :
    script.statement? (printLine (pins.map Pin.name)).toList =
      some (.print (pins.map Pin.name)) := by
  have hread (rest : List Char) :
      script.read? ("    Serial.println([".toList ++ (rest ++ script.printTail.toList)) = none := by
    have hinner : "    Serial.println([".toList ++ (rest ++ script.printTail.toList) =
        script.readHead.toList ++ ((' ' :: ' ' :: ("Serial.println([".toList ++ (rest ++
          "].join(',')".toList))) ++ script.readTail.toList) := by
      simp [script]
    exact read?_eq_none hinner (by rw [List.dropWhile_cons_of_neg (by decide)]; rfl)
  have hheads : script.printHeads = ["    Serial.println(["] := rfl
  rw [toList_printLine, statement?_eq_print? rfl rfl rfl (hread _), print?, hheads, List.findSome?_cons,
    inside?_append, Option.map_some, namesIn_intercalate]
  rw [List.forall_mem_map]
  exact fun pin _ => namesIn_name pin

theorem filterMap_delayLines (plan : Plan) :
    ((delayLines plan).map String.toList).filterMap script.statement? = [] := by
  unfold delayLines
  split
  next milliseconds _ =>
    have hline : ("  delay(" ++ milliseconds.repr ++ ")").toList = script.readHead.toList ++
        (("delay(".toList ++ milliseconds.repr.toList) ++ script.readTail.toList) := by
      simp [script]
    have hdelay : script.statement? ("  delay(" ++ milliseconds.repr ++ ")").toList = none := by
      rw [hline, statement?_eq_print? rfl rfl rfl (read?_eq_none rfl rfl)]
      rfl
    rw [List.map_cons, List.filterMap_cons_none hdelay]
    rfl
  next => rfl

/-- The lines of a script do what the plan says. -/
theorem filterMap_lines (plan : Plan) :
    ((lines plan).map String.toList).filterMap script.statement? =
      (plan.parts [plan.prints.map Pin.name]).statements := by
  have hgenerated : script.statement?
      ("# Generated by rossoc (target: " ++ plan.target ++ ")").toList = none := by
    rw [String.toList_append, String.toList_append]
    rfl
  have hbegin : script.statement? ("Serial.begin(" ++ plan.baudRate.repr ++ ")").toList = none := by
    rw [String.toList_append, String.toList_append]
    rfl
  have hempty : script.statement? "".toList = none := rfl
  have hloop : script.statement? "loop do".toList = some .loop := rfl
  have hend : script.statement? "  end".toList = none := rfl
  have hend' : script.statement? "end".toList = none := rfl
  simp only [lines, List.map_append, List.filterMap_append, List.map_cons, List.map_nil,
    List.filterMap_cons, List.filterMap_nil, hgenerated, hbegin, hempty, hloop, hend, hend',
    statement?_testLine, statement?_printLine, filterMap_modeLines, filterMap_readLines,
    filterMap_delayLines]
  simp [ProgramParts.statements, Plan.parts, Function.comp_def]

end Script

end PinQuery
