import PinQuery.Proofs.Target.Parts

/-!
# Programs of one plan behave alike

A program is read back from its text alone, line by line. What it does is a `Behaviour`, which does
not show the language it was written in.

* `Outline` says where the lines of a program stand; `Outline.sketch` and `Outline.script` are those
  of the two languages. `Outline.behaviour?` reads a program, and refuses every text with a line
  that is not in its place.
* A condition may go on over several lines, and lines of it may look like any others. It ends at the
  last place where a test can end and printing begins (`cutLast?`).
* `Outline.Reads`: the lines that set, read and print pins are told apart from the others. Then the
  program of a plan is read back as the behaviour of the plan (`Outline.Reads.behaviour?_eq`).
* `programs_behave_alike`: sketches and scripts are read back as the same behaviour.
-/

namespace PinQuery

open Text

/-- What a program does: the number that the serial line is opened with, the pins that are made
inputs, the readings of one round, the condition, the line that is printed when it holds, given the
values of the variables, and the delay at the end of a round, if there is one. -/
structure Behaviour where
  baud : String
  inputs : List String
  readings : List Reading
  condition : String
  line : (String → String) → String
  delay : Option String

/-! ## Runs and cuts -/

section

variable {α β γ : Type}

/-- The longest run of elements that a reader takes, and what is left. -/
def spanSome (f : α → Option β) : List α → List β × List α
  | [] => ([], [])
  | x :: xs =>
    match f x with
    | some y => (y :: (spanSome f xs).1, (spanSome f xs).2)
    | none => ([], x :: xs)

theorem spanSome_map_append {f : α → Option β} {g : γ → α} {h : γ → β} {xs : List γ} {rest : List α}
    (hxs : ∀ x ∈ xs, f (g x) = some (h x)) (hrest : ∀ x ∈ rest.head?, f x = none) :
    spanSome f (xs.map g ++ rest) = (xs.map h, rest) := by
  induction xs with
  | nil =>
    cases rest with
    | nil => rfl
    | cons x rest => simp [spanSome, hrest x rfl]
  | cons x xs ih =>
    have ih := ih fun y hy => hxs y (by simp [hy])
    simp [spanSome, hxs x (by simp), ih]

/-- The cut of a list behind the last element that fits to what follows it. -/
def cutLast? (fits : α → List α → Bool) : List α → Option (List α × List α)
  | [] => none
  | x :: xs =>
    match cutLast? fits xs with
    | some (front, back) => some (x :: front, back)
    | none => if fits x xs then some ([x], xs) else none

theorem cutLast?_append {fits : α → List α → Bool} {front back : List α} {last : α}
    (hfits : fits last back = true) (hback : cutLast? fits back = none) :
    cutLast? fits (front ++ last :: back) = some (front ++ [last], back) := by
  induction front with
  | nil => simp [cutLast?, hback, hfits]
  | cons x front ih => simp [cutLast?, ih]

theorem cutLast?_cons_eq_none {fits : α → List α → Bool} {x : α} {xs : List α}
    (hxs : cutLast? fits xs = none) (hx : fits x xs = false) : cutLast? fits (x :: xs) = none := by
  simp [cutLast?, hxs, hx]

theorem cutLast?_eq_none {fits : α → List α → Bool} {xs : List α}
    (h : ∀ x ∈ xs, ∀ rest, fits x rest = false) : cutLast? fits xs = none := by
  induction xs with
  | nil => rfl
  | cons x xs ih =>
    exact cutLast?_cons_eq_none (ih fun y hy => h y (by simp [hy])) (h x (by simp) xs)

end

/-- A text is found again between a head and a tail. -/
theorem inside?_toList (head text tail : String) :
    (inside? head.toList tail.toList (head ++ text ++ tail).toList).map String.ofList =
      some text := by
  rw [String.append_assoc, String.toList_append, String.toList_append, inside?_append,
    Option.map_some, String.ofList_toList]

/-! ## What is printed -/

/-- A variable: a word that begins with a letter. -/
def varName? : List Char → Option String
  | [] => none
  | c :: cs =>
    if Scan.isWordStart c && cs.all Scan.isWordPart then some (String.ofList (c :: cs)) else none

theorem Pin.varName?_name (pin : Pin) : varName? pin.name.toList = some pin.name := by
  obtain ⟨c, tail, hname, hc, htail⟩ := pin.exists_word
  have hall : tail.all Scan.isWordPart = true := List.all_eq_true.2 htail
  rw [hname, varName?, hc, hall, ← hname, String.ofList_toList]
  rfl

/-- A piece of a printed line: the value of a variable, or a given text. -/
inductive Printed
  | value (name : String)
  | fixed (text : String)
deriving DecidableEq, Repr

/-- The text of a piece, given the values of the variables. -/
def Printed.write (values : String → String) : Printed → String
  | .value name => values name
  | .fixed text => text

namespace Sketch

/-- A text between quotes, with neither a quote nor a backslash in it. -/
def literal? (cs : List Char) : Option String := do
  let inside ← inside? ['\x22'] ['\x22'] cs
  if inside.all fun c => c != '\x22' && c != '\x5c' then some (String.ofList inside) else none

/-- The pieces that a call prints: none without an argument, or a variable, or a text. -/
def pieces? (argument : List Char) : Option (List Printed) :=
  if argument.isEmpty then some []
  else (((varName? argument).map Printed.value).or ((literal? argument).map Printed.fixed)).map
    fun piece => [piece]

/-- The pieces that are printed up to the end of a line, and the lines behind that. -/
def printed? : List (List Char) → Option (List Printed × List (List Char))
  | [] => none
  | line :: lines =>
    match inside? "    Serial.println(".toList ");".toList line with
    | some argument => (pieces? argument).map fun pieces => (pieces, lines)
    | none => do
      let argument ← inside? "    Serial.print(".toList ");".toList line
      let pieces ← pieces? argument
      let (more, rest) ← printed? lines
      return (pieces ++ more, rest)

/-- The line that is printed, given the values of the variables: piece after piece. -/
def line? (lines : List (List Char)) :
    Option (((String → String) → String) × List (List Char)) :=
  (printed? lines).map fun (pieces, rest) =>
    (fun values => String.join (pieces.map (Printed.write values)), rest)

end Sketch

namespace Script

/-- The elements of an array of variables. -/
def elements? (cs : List Char) : Option (List String) :=
  if cs.isEmpty then some []
  else (split ',' cs).mapM fun element => varName? (element.dropWhile (· == ' '))

/-- The line that is printed, given the values of the variables: the elements, joined by commas. -/
def line? : List (List Char) → Option (((String → String) → String) × List (List Char))
  | [] => none
  | line :: lines => do
    let array ← inside? "    Serial.println([".toList "].join(','))".toList line
    let elements ← elements? array
    return (fun values => ",".intercalate (elements.map values), lines)

end Script

/-! ## Outlines -/

/-- Where the lines of a program stand: some opening lines, the one that opens the serial line, the
inputs, the lines that turn to the loop, the readings, the test, what is printed, the line that
closes the test, the delay, and the last line. -/
structure Outline extends Dialect where
  opening : List String
  beginHead : String
  beginTail : String
  turn : List String
  line? : List (List Char) → Option (((String → String) → String) × List (List Char))
  closing : String
  delayHead : String
  delayTail : String
  final : String

namespace Outline

/-- The lines of sketches. -/
def sketch : Outline where
  toDialect := .sketch
  opening := ["void setup() \x7b"]
  beginHead := "  Serial.begin("
  beginTail := ");"
  turn := ["\x7d", "", "void loop() \x7b"]
  line? := Sketch.line?
  closing := "  \x7d"
  delayHead := "  delay("
  delayTail := ");"
  final := "\x7d"

/-- The lines of scripts. -/
def script : Outline where
  toDialect := .script
  opening := []
  beginHead := "Serial.begin("
  beginTail := ")"
  turn := ["", "loop do"]
  line? := Script.line?
  closing := "  end"
  delayHead := "  delay("
  delayTail := ")"
  final := "end"

variable (outline : Outline)

/-- The number that the serial line is opened with. -/
def begin? (line : List Char) : Option String :=
  (inside? outline.beginHead.toList outline.beginTail.toList line).map String.ofList

/-- The pin that a line makes an input. -/
def input? (line : List Char) : Option String :=
  match outline.statement? line with
  | some (.mode index) => some index
  | _ => none

/-- What a line reads. -/
def reading? (line : List Char) : Option Reading :=
  match outline.statement? line with
  | some (.read reading) => some reading
  | _ => none

/-- Whether a test can end with a line before the given lines. -/
def endsTest (line : List Char) (rest : List (List Char)) : Bool :=
  (after? outline.testTail.toList.reverse line.reverse).isSome && (outline.line? rest).isSome

/-- The condition that is tested on some lines. -/
def condition? (test : List (List Char)) : Option String :=
  (inside? outline.testHead.toList outline.testTail.toList (['\n'].intercalate test)).map
    String.ofList

/-- The argument of a delay. -/
def delay? (line : List Char) : Option String :=
  (inside? outline.delayHead.toList outline.delayTail.toList line).map String.ofList

/-- What a program does, if all its lines are in their places. -/
def behaviour? (program : String) : Option Behaviour := do
  let lines ← (outline.opening.map String.toList).isPrefixOf? (split '\n' program.toList)
  let baud ← lines.head?.bind outline.begin?
  let (inputs, lines) := spanSome outline.input? lines.tail
  let lines ← (outline.turn.map String.toList).isPrefixOf? lines
  let (readings, lines) := spanSome outline.reading? lines
  let (test, lines) ← cutLast? outline.endsTest lines
  let condition ← outline.condition? test
  let (line, lines) ← outline.line? lines
  let lines ← [outline.closing.toList].isPrefixOf? lines
  let (delays, lines) := spanSome outline.delay? lines
  if delays.length ≤ 1 ∧ lines = [outline.final.toList, []] then
    return ⟨baud, inputs, readings, condition, line, delays.head?⟩
  else
    none

/-- The last lines of a program: the end of the test, the delay and the end of the loop. -/
def ending (delay : Option Nat) : List String :=
  outline.closing
    :: (delay.toList.map fun milliseconds =>
      outline.delayHead ++ milliseconds.repr ++ outline.delayTail) ++ [outline.final]

/-- The lines of the program of a plan, given those that set, read and print pins. -/
def lines (modeLine : Nat → String) (readLine : Pin → String) (printLines : List Pin → List String)
    (plan : Plan) : List String :=
  outline.opening ++ [outline.beginHead ++ plan.baudRate.repr ++ outline.beginTail]
    ++ plan.pins.digitalIn.toList.map modeLine ++ outline.turn ++ plan.reads.map readLine
    ++ [outline.testHead ++ plan.condition.text ++ outline.testTail] ++ printLines plan.prints
    ++ outline.ending plan.delay?

/-- The lines that set, read and print pins can be told apart from the others. -/
structure Reads (modeLine : Nat → String) (readLine : Pin → String)
    (printLines : List Pin → List String) : Prop where
  isLine_fixed : ∀ line ∈ outline.opening ++ outline.turn ++ [outline.beginHead, outline.beginTail,
    outline.testHead, outline.testTail, outline.closing, outline.delayHead, outline.delayTail,
    outline.final], IsLine line
  isLine_mode : ∀ index, IsLine (modeLine index)
  isLine_read : ∀ pin, IsLine (readLine pin)
  isLine_print : ∀ pins, ∀ line ∈ printLines pins, IsLine line
  input?_mode : ∀ index, outline.input? (modeLine index).toList = some index.repr
  input?_turn : ∃ first rest, outline.turn = first :: rest ∧ outline.input? first.toList = none
  reading?_read : ∀ pin, outline.reading? (readLine pin).toList = some pin.reading
  reading?_test : ∀ rest, outline.reading? (outline.testHead.toList ++ rest) = none
  line?_print : ∀ pins rest, outline.line? ((printLines pins).map String.toList ++ rest) =
    some (fun values => ",".intercalate (pins.map fun pin => values pin.name), rest)
  cutLast?_print : ∀ pins delay, cutLast? outline.endsTest ((printLines pins).map String.toList
    ++ ((outline.ending delay).map String.toList ++ [[]])) = none
  delay?_final : outline.delay? outline.final.toList = none

end Outline

/-- What a plan asks of a board. The pins of each kind are in increasing order, as their sets list
them. -/
def Plan.behaviour (plan : Plan) : Behaviour where
  baud := plan.baudRate.repr
  inputs := plan.pins.digitalIn.toList.map Nat.repr
  readings :=
    (plan.pins.digitalIn.toList.map fun index =>
      ⟨"din" ++ index.repr, "digitalRead", index.repr⟩)
    ++ plan.pins.analogIn.toList.map fun index => ⟨"ain" ++ index.repr, "analogRead", index.repr⟩
  condition := plan.condition.text
  line := fun values => ",".intercalate
    ((plan.pins.digitalOut.toList.map fun index => values ("din" ++ index.repr))
      ++ plan.pins.analogOut.toList.map fun index => values ("ain" ++ index.repr))
  delay := plan.delay?.map Nat.repr

theorem Outline.condition?_split (outline : Outline) (condition : String) :
    outline.condition? (split '\n' (outline.testHead ++ condition ++ outline.testTail).toList) =
      some condition := by
  rw [condition?, intercalate_split, inside?_toList]

/-- A line that is neither a reading nor anything but a test is no reading. -/
theorem Outline.reading?_eq_none {outline : Outline} {line : List Char}
    (hmode : outline.mode? line = none) (hloop : outline.loop? line = none)
    (hread : outline.read? line = none) (hprint : outline.print? line = none) :
    outline.reading? line = none := by
  unfold reading? Dialect.statement? Dialect.test?
  rw [hmode, hloop, hread, hprint]
  cases inside? outline.testHead.toList outline.testTail.toList line <;> rfl

theorem Plan.reads_map_reading (plan : Plan) :
    plan.reads.map Pin.reading = plan.behaviour.readings := by
  simp [reads, behaviour, Pin.reading, Pin.name, PinKind.stem, PinKind.readFunction,
    Function.comp_def]

theorem Plan.prints_map_name (plan : Plan) (values : String → String) :
    ",".intercalate (plan.prints.map fun pin => values pin.name) = plan.behaviour.line values := by
  simp [prints, behaviour, Pin.name, PinKind.stem, Function.comp_def]

namespace Outline.Reads

variable {outline : Outline} {modeLine : Nat → String} {readLine : Pin → String}
  {printLines : List Pin → List String} (h : outline.Reads modeLine readLine printLines)

include h

theorem isLine_ending (delay : Option Nat) : ∀ line ∈ outline.ending delay, IsLine line := by
  have hfixed := h.isLine_fixed
  simp only [List.forall_mem_append, List.forall_mem_cons] at hfixed
  obtain ⟨-, -, -, -, -, hclosing, hhead, htail, hfinal, -⟩ := hfixed
  cases delay with
  | none => simpa [ending] using ⟨hclosing, hfinal⟩
  | some milliseconds =>
    simpa [ending] using ⟨hclosing, (isLine_repr milliseconds).enclose hhead htail, hfinal⟩

/-- The lines of a program, those of the condition among them. -/
theorem split_lines (plan : Plan) :
    split '\n' (unlines (outline.lines modeLine readLine printLines plan)).toList =
      outline.opening.map String.toList
        ++ ((outline.beginHead ++ plan.baudRate.repr ++ outline.beginTail).toList
          :: (plan.pins.digitalIn.toList.map (fun index => (modeLine index).toList)
            ++ (outline.turn.map String.toList
              ++ (plan.reads.map (fun pin => (readLine pin).toList)
                ++ (split '\n' (outline.testHead ++ plan.condition.text ++ outline.testTail).toList
                  ++ ((printLines plan.prints).map String.toList
                    ++ ((outline.ending plan.delay?).map String.toList ++ [[]]))))))) := by
  have hfixed := h.isLine_fixed
  simp only [List.forall_mem_append, List.forall_mem_cons] at hfixed
  obtain ⟨⟨hopening, hturn⟩, hhead, htail, -⟩ := hfixed
  have hbegin := (isLine_repr plan.baudRate).enclose hhead htail
  have hmodes : ∀ line ∈ plan.pins.digitalIn.toList.map modeLine, IsLine line :=
    List.forall_mem_map.2 fun index _ => h.isLine_mode index
  have hreads : ∀ line ∈ plan.reads.map readLine, IsLine line :=
    List.forall_mem_map.2 fun pin _ => h.isLine_read pin
  rw [split_unlines_eq_flatMap]
  simp only [lines, List.flatMap_append, flatMap_split_of_isLine hopening,
    flatMap_split_of_isLine hturn, flatMap_split_of_isLine hmodes, flatMap_split_of_isLine hreads,
    flatMap_split_of_isLine (h.isLine_print _), flatMap_split_of_isLine (h.isLine_ending _),
    List.flatMap_cons, split_of_not_mem hbegin, List.map_map, List.append_assoc, List.cons_append,
    List.nil_append, Function.comp_def]

theorem isLine_test : IsLine outline.testHead ∧ IsLine outline.testTail := by
  have hfixed := h.isLine_fixed
  simp only [List.forall_mem_append, List.forall_mem_cons] at hfixed
  exact ⟨hfixed.2.2.2.1, hfixed.2.2.2.2.1⟩

/-- No line that begins a test is taken for a reading. -/
theorem spanSome_reading? (pins : List Pin) (condition : String) (rest : List (List Char)) :
    spanSome outline.reading? (pins.map (fun pin => (readLine pin).toList)
        ++ (split '\n' (outline.testHead ++ condition ++ outline.testTail).toList ++ rest)) =
      (pins.map Pin.reading,
        split '\n' (outline.testHead ++ condition ++ outline.testTail).toList ++ rest) := by
  refine spanSome_map_append (fun pin _ => h.reading?_read pin) ?_
  rw [String.append_assoc, String.toList_append]
  obtain ⟨piece, more, hsplit⟩ :=
    split_append_left h.isLine_test.1 (condition ++ outline.testTail).toList
  rw [hsplit]
  rintro line ⟨⟩
  exact h.reading?_test piece

/-- The test ends where it was written to end. -/
theorem cutLast?_endsTest (pins : List Pin) (condition : String) (delay : Option Nat) :
    cutLast? outline.endsTest (split '\n' (outline.testHead ++ condition ++ outline.testTail).toList
        ++ ((printLines pins).map String.toList
          ++ ((outline.ending delay).map String.toList ++ [[]]))) =
      some (split '\n' (outline.testHead ++ condition ++ outline.testTail).toList,
        (printLines pins).map String.toList
          ++ ((outline.ending delay).map String.toList ++ [[]])) := by
  rw [String.toList_append]
  obtain ⟨front, last, hsplit⟩ :=
    split_append_right h.isLine_test.2 (outline.testHead ++ condition).toList
  rw [hsplit, List.append_assoc, List.singleton_append]
  refine cutLast?_append ?_ (h.cutLast?_print pins delay)
  rw [endsTest, h.line?_print, List.reverse_append, after?_append]
  rfl

theorem spanSome_delay? (delay : Option Nat) :
    spanSome outline.delay? ((outline.ending delay).tail.map String.toList ++ [[]]) =
      (delay.toList.map Nat.repr, [outline.final.toList, []]) := by
  have htail : (outline.ending delay).tail.map String.toList ++ [[]] =
      delay.toList.map (fun milliseconds =>
        (outline.delayHead ++ milliseconds.repr ++ outline.delayTail).toList)
      ++ [outline.final.toList, []] := by
    simp [ending]
  rw [htail]
  refine spanSome_map_append (fun milliseconds _ => ?_) ?_
  · exact inside?_toList _ _ _
  · rintro line ⟨⟩
    exact h.delay?_final

/-- **The program of a plan is read back as what the plan asks for.** -/
theorem behaviour?_eq (plan : Plan) :
    outline.behaviour? (unlines (outline.lines modeLine readLine printLines plan)) =
      some plan.behaviour := by
  have hbegin : outline.begin?
      (outline.beginHead ++ plan.baudRate.repr ++ outline.beginTail).toList =
        some plan.baudRate.repr := inside?_toList _ _ _
  obtain ⟨first, more, hturn, hfirst⟩ := h.input?_turn
  have hinputs (rest : List (List Char)) : spanSome outline.input?
      (plan.pins.digitalIn.toList.map (fun index => (modeLine index).toList)
        ++ (outline.turn.map String.toList ++ rest)) =
      (plan.pins.digitalIn.toList.map Nat.repr, outline.turn.map String.toList ++ rest) := by
    refine spanSome_map_append (fun index _ => h.input?_mode index) ?_
    rw [hturn]
    rintro line ⟨⟩
    exact hfirst
  have hstrip (fixed rest : List (List Char)) : fixed.isPrefixOf? (fixed ++ rest) = some rest :=
    List.isPrefixOf?_eq_some_iff_append_eq.2 rfl
  have hending : (outline.ending plan.delay?).map String.toList ++ [[]] =
      [outline.closing.toList]
        ++ ((outline.ending plan.delay?).tail.map String.toList ++ [[]]) := rfl
  rw [behaviour?, h.split_lines]
  simp only [hstrip, hbegin, hinputs, h.spanSome_reading?, h.cutLast?_endsTest, condition?_split,
    h.line?_print, Option.bind_eq_bind, Option.bind_some, List.head?_cons, List.tail_cons]
  rw [hending, hstrip]
  simp only [Option.bind_some, h.spanSome_delay?, plan.reads_map_reading, plan.prints_map_name]
  cases hdelay : plan.delay? <;> simp [Plan.behaviour, hdelay]

end Outline.Reads

/-! ## Sketches -/

namespace Sketch

theorem pieces?_name (pin : Pin) : pieces? pin.name.toList = some [.value pin.name] := by
  have hne : pin.name.toList.isEmpty = false := by simpa using pin.toList_name_ne_nil
  rw [pieces?, hne, pin.varName?_name]
  rfl

theorem printed?_println {argument : String} {pieces : List Printed} (rest : List (List Char))
    (h : pieces? argument.toList = some pieces) :
    printed? (("    Serial.println(" ++ argument ++ ");").toList :: rest) =
      some (pieces, rest) := by
  rw [String.append_assoc, String.toList_append, String.toList_append, printed?, inside?_append]
  simp only [h, Option.map_some]

theorem printed?_print {argument : String} {pieces more : List Printed}
    {lines rest : List (List Char)} (h : pieces? argument.toList = some pieces)
    (hlines : printed? lines = some (more, rest)) :
    printed? (("    Serial.print(" ++ argument ++ ");").toList :: lines) =
      some (pieces ++ more, rest) := by
  -- the longer head does not fit
  have hprintln : inside? "    Serial.println(".toList ");".toList
      ("    Serial.print(".toList ++ (argument.toList ++ ");".toList)) = none := rfl
  rw [String.append_assoc, String.toList_append, String.toList_append, printed?, hprintln,
    inside?_append]
  simp only [h, hlines, Option.bind_eq_bind, Option.bind_some]
  rfl

/-- The pieces that a sketch prints are the values with commas between them. -/
theorem exists_printed? (pins : List Pin) (rest : List (List Char)) : ∃ pieces,
    printed? ((printLines (pins.map Pin.name)).map String.toList ++ rest) = some (pieces, rest) ∧
      ∀ values, String.join (pieces.map (Printed.write values)) =
        ",".intercalate (pins.map fun pin => values pin.name) := by
  induction pins with
  | nil =>
    have hline : "    Serial.println();" = "    Serial.println(" ++ "" ++ ");" := rfl
    have hnone : pieces? "".toList = some [] := rfl
    refine ⟨[], ?_, fun values => rfl⟩
    rw [List.map_nil, printLines, List.map_singleton, List.singleton_append, hline]
    exact printed?_println rest hnone
  | cons pin pins ih =>
    cases pins with
    | nil =>
      refine ⟨[.value pin.name], ?_, fun values => by simp [Printed.write]⟩
      rw [List.map_singleton, printLines, List.map_singleton, List.singleton_append]
      exact printed?_println rest (pieces?_name pin)
    | cons next pins =>
      obtain ⟨pieces, hprinted, hwrite⟩ := ih
      refine ⟨.value pin.name :: .fixed "," :: pieces, ?_, fun values => ?_⟩
      · have hline : "    Serial.print(\x22,\x22);" =
            "    Serial.print(" ++ "\x22,\x22" ++ ");" := rfl
        have hcomma : pieces? "\x22,\x22".toList = some [.fixed ","] := rfl
        rw [List.map_cons, List.map_cons, printLines, List.map_cons, List.map_cons,
          List.cons_append, List.cons_append, ← List.map_cons, hline]
        · exact printed?_print (pieces?_name pin) (printed?_print hcomma hprinted)
        · simp
      · rw [List.map_cons, List.map_cons, String.join_cons, String.join_cons, hwrite]
        simp [Printed.write, String.intercalate_cons_cons, String.append_assoc]

theorem endsTest_call (front : String) (rest : List (List Char)) :
    Outline.sketch.endsTest (front ++ ");").toList rest = false := by
  rw [String.toList_append, Outline.endsTest, List.reverse_append]
  rfl

/-- No test ends with a line that prints. -/
theorem endsTest_of_mem_printLines (names : List String) : ∀ line ∈ printLines names,
    ∀ rest, Outline.sketch.endsTest line.toList rest = false := by
  induction names using printLines.induct with
  | case1 => exact List.forall_mem_singleton.2 (endsTest_call "    Serial.println(")
  | case2 last =>
    exact List.forall_mem_singleton.2 (endsTest_call ("    Serial.println(" ++ last))
  | case3 first rest hrest ih =>
    rw [printLines, List.forall_mem_cons, List.forall_mem_cons]
    · exact ⟨endsTest_call ("    Serial.print(" ++ first),
        endsTest_call "    Serial.print(\x22,\x22", ih⟩
    · exact hrest

theorem endsTest_of_mem_ending (delay : Option Nat) : ∀ line ∈ Outline.sketch.ending delay,
    ∀ rest, Outline.sketch.endsTest line.toList rest = false := by
  have hclosing (rest : List (List Char)) :
      Outline.sketch.endsTest "  \x7d".toList rest = false := rfl
  have hfinal (rest : List (List Char)) : Outline.sketch.endsTest "\x7d".toList rest = false := rfl
  rw [Outline.ending, List.cons_append, List.forall_mem_cons, List.forall_mem_append,
    List.forall_mem_singleton, List.forall_mem_map]
  exact ⟨hclosing, fun milliseconds _ => endsTest_call ("  delay(" ++ milliseconds.repr), hfinal⟩

/-- The lines of sketches can be told apart. -/
theorem reads : Outline.sketch.Reads (fun index => "  pinMode(" ++ index.repr ++ ", INPUT);")
    (fun pin => "  int " ++ pin.name ++ " = " ++ pin.readCall ++ ";")
    (fun pins => printLines (pins.map Pin.name)) where
  isLine_fixed := by decide
  isLine_mode := fun index => (isLine_repr index).enclose (by decide) (by decide)
  isLine_read := fun pin =>
    pin.isLine_readCall.enclose (pin.isLine_name.enclose (by decide) (by decide)) (by decide)
  isLine_print := fun pins => isLine_of_mem_printLines (Pin.isLine_of_mem_names pins)
  input?_mode := fun index => by
    have hstatement := statement?_modeLine index
    unfold Outline.input?
    rw [show Outline.sketch.toDialect = .sketch from rfl, hstatement]
  input?_turn := ⟨_, _, rfl, rfl⟩
  reading?_read := fun pin => by
    unfold Outline.reading?
    rw [show Outline.sketch.toDialect = .sketch from rfl, statement?_readLine]
  reading?_test := fun rest => Outline.reading?_eq_none rfl rfl rfl rfl
  line?_print := fun pins rest => by
    obtain ⟨pieces, hprinted, hwrite⟩ := exists_printed? pins rest
    simp only [Outline.sketch, line?, hprinted, Option.map_some, hwrite]
  cutLast?_print := fun pins delay => by
    refine cutLast?_eq_none ?_
    simp only [List.forall_mem_append, List.forall_mem_map, List.forall_mem_singleton]
    exact ⟨endsTest_of_mem_printLines _, endsTest_of_mem_ending delay, fun rest => rfl⟩
  delay?_final := rfl

end Sketch

/-! ## Scripts -/

namespace Script

theorem varName?_dropWhile_name (pin : Pin) :
    varName? (pin.name.toList.dropWhile (· == ' ')) = some pin.name := by
  have hname : pin.name.toList.dropWhile (· == ' ') = pin.name.toList := by
    obtain ⟨c, tail, hname, hc, -⟩ := pin.exists_word
    have hspace : (c == ' ') = false := by
      rw [beq_eq_false_iff_ne]
      rintro rfl
      exact absurd hc (by decide)
    rw [hname, List.dropWhile_cons_of_neg (by simp [hspace])]
  rw [hname, pin.varName?_name]

/-- The elements of an array are the words between its commas. -/
theorem mapM_split_intercalate (pin : Pin) (pins : List Pin) :
    (split ',' (", ".intercalate ((pin :: pins).map Pin.name)).toList).mapM
        (fun element => varName? (element.dropWhile (· == ' '))) =
      some ((pin :: pins).map Pin.name) := by
  have hcomma (pin : Pin) : split ',' pin.name.toList = [pin.name.toList] :=
    split_of_not_mem fun hmem => absurd (pin.isWordPart_of_mem_name ',' hmem) (by decide)
  induction pins generalizing pin with
  | nil => simp [hcomma, varName?_dropWhile_name]
  | cons next pins ih =>
    have htext : (", ".intercalate ((pin :: next :: pins).map Pin.name)).toList =
        pin.name.toList
          ++ ',' :: ' ' :: (", ".intercalate ((next :: pins).map Pin.name)).toList := by
      simp [String.intercalate_cons_cons]
    have hne : ' ' ≠ ',' := by decide
    obtain ⟨piece, rest, hsplit, hspace⟩ :=
      split_cons_of_ne hne (", ".intercalate ((next :: pins).map Pin.name)).toList
    have ih := ih next
    rw [hsplit] at ih
    rw [htext, split_append, hcomma, hspace, List.singleton_append, List.mapM_cons,
      varName?_dropWhile_name]
    have hdrop : (' ' :: piece).dropWhile (· == ' ') = piece.dropWhile (· == ' ') := rfl
    rw [List.mapM_cons] at ih ⊢
    rw [hdrop, ih]
    rfl

theorem elements?_intercalate (pins : List Pin) :
    elements? (", ".intercalate (pins.map Pin.name)).toList = some (pins.map Pin.name) := by
  cases pins with
  | nil => rfl
  | cons pin pins =>
    have helements := mapM_split_intercalate pin pins
    have hne : (", ".intercalate ((pin :: pins).map Pin.name)).toList.isEmpty = false := by
      cases htext : (", ".intercalate ((pin :: pins).map Pin.name)).toList with
      | nil =>
        rw [htext] at helements
        cases helements
      | cons => rfl
    rw [elements?, hne, helements]
    rfl

/-- No test ends before a line that does not print. -/
theorem endsTest_eq_false (line : List Char) {rest : List (List Char)} (h : line? rest = none) :
    Outline.script.endsTest line rest = false := by
  rw [Outline.endsTest, show Outline.script.line? rest = none from h, Option.isSome_none,
    Bool.and_false]

/-- No line behind the one that prints does so too. -/
theorem cutLast?_ending (line : List Char) (delay : Option Nat) :
    cutLast? Outline.script.endsTest
      (line :: ((Outline.script.ending delay).map String.toList ++ [[]])) = none := by
  have hfinal (line : List Char) :
      cutLast? Outline.script.endsTest [line, Outline.script.final.toList, []] = none := by
    refine cutLast?_cons_eq_none (cutLast?_cons_eq_none (cutLast?_cons_eq_none rfl ?_) ?_) ?_ <;>
      exact endsTest_eq_false _ rfl
  refine cutLast?_cons_eq_none ?_ (endsTest_eq_false line rfl)
  cases delay with
  | none => exact hfinal _
  | some milliseconds =>
    have hdelay : line? [("  delay(" ++ milliseconds.repr ++ ")").toList, "end".toList, []] =
        none := by
      rw [String.append_assoc, String.toList_append]
      rfl
    exact cutLast?_cons_eq_none (hfinal _) (endsTest_eq_false _ hdelay)

/-- The lines of scripts can be told apart. -/
theorem reads : Outline.script.Reads (fun index => "pinMode(" ++ index.repr ++ ", INPUT)")
    (fun pin => "  " ++ pin.name ++ " = " ++ pin.readCall)
    (fun pins => [printLine (pins.map Pin.name)]) where
  isLine_fixed := by decide
  isLine_mode := fun index => (isLine_repr index).enclose (by decide) (by decide)
  isLine_read := fun pin =>
    (pin.isLine_name.enclose (by decide) (by decide)).append pin.isLine_readCall
  isLine_print := fun pins => List.forall_mem_singleton.2 <|
    (isLine_intercalate (by decide) (Pin.isLine_of_mem_names pins)).enclose (by decide) (by decide)
  input?_mode := fun index => by
    unfold Outline.input?
    rw [show Outline.script.toDialect = .script from rfl, statement?_modeLine]
  input?_turn := ⟨_, _, rfl, rfl⟩
  reading?_read := fun pin => by
    unfold Outline.reading?
    rw [show Outline.script.toDialect = .script from rfl, statement?_readLine]
  reading?_test := fun rest => by
    have hline : Outline.script.testHead.toList ++ rest =
        ("  if " ++ String.ofList rest).toList := by
      simp [Outline.script, Dialect.script]
    unfold Outline.reading?
    rw [hline, show Outline.script.toDialect = .script from rfl, statement?_testLine]
  line?_print := fun pins rest => by
    have hline : inside? "    Serial.println([".toList "].join(','))".toList
        (printLine (pins.map Pin.name)).toList =
          some (", ".intercalate (pins.map Pin.name)).toList := by
      rw [toList_printLine]
      exact inside?_append _ _ _
    change line? ((printLine (pins.map Pin.name)).toList :: rest) = _
    simp only [line?, hline, elements?_intercalate, Option.bind_eq_bind, Option.bind_some,
      List.map_map, Function.comp_def, Option.pure_def]
  cutLast?_print := fun pins delay => cutLast?_ending _ delay
  delay?_final := rfl

end Script

/-! ## Both languages -/

theorem unlines_append (lines more : List String) :
    unlines (lines ++ more) = unlines lines ++ unlines more := by
  simp [unlines]

theorem unlines_heading (heading target : String) :
    unlines [heading ++ target ++ ")", ""] = heading ++ target ++ ")\n\n" := by
  simp [unlines, String.append_assoc]

/-- A sketch is its heading, a blank line and the lines of its outline. -/
theorem Sketch.render_eq (name : String) (plan : Plan) : (renderer name).render plan =
    "// Generated by rossoc (target: " ++ plan.target ++ ")\n\n"
      ++ unlines (Outline.sketch.lines (fun index => "  pinMode(" ++ index.repr ++ ", INPUT);")
        (fun pin => "  int " ++ pin.name ++ " = " ++ pin.readCall ++ ";")
        (fun pins => printLines (pins.map Pin.name)) plan) := by
  rw [← unlines_heading, ← unlines_append]
  cases hdelay : plan.delay? <;>
    simp [renderer, lines, Outline.lines, Outline.ending, Outline.sketch, Dialect.sketch, modeLines,
      readLines, delayLines, hdelay]

/-- A script is its heading, a blank line and the lines of its outline. -/
theorem Script.render_eq (plan : Plan) : renderer.render plan =
    "# Generated by rossoc (target: " ++ plan.target ++ ")\n\n"
      ++ unlines (Outline.script.lines (fun index => "pinMode(" ++ index.repr ++ ", INPUT)")
        (fun pin => "  " ++ pin.name ++ " = " ++ pin.readCall)
        (fun pins => [printLine (pins.map Pin.name)]) plan) := by
  rw [← unlines_heading, ← unlines_append]
  cases hdelay : plan.delay? <;>
    simp [renderer, lines, Outline.lines, Outline.ending, Outline.script, Dialect.script, modeLines,
      readLines, delayLines, hdelay]

/-- **The sketch and the script of one plan behave alike.** Behind a heading that names the target,
both texts are read back as the behaviour of the plan, whatever its pins, condition, delay and speed
are. The pins of every kind are in increasing order. -/
theorem programs_behave_alike (plan : Plan) (name : String) :
    ∃ sketch script : String,
      (Sketch.renderer name).render plan =
        "// Generated by rossoc (target: " ++ plan.target ++ ")\n\n" ++ sketch ∧
      Script.renderer.render plan =
        "# Generated by rossoc (target: " ++ plan.target ++ ")\n\n" ++ script ∧
      Outline.sketch.behaviour? sketch = some plan.behaviour ∧
      Outline.script.behaviour? script = some plan.behaviour ∧
      ∀ set ∈ [plan.pins.digitalIn, plan.pins.analogIn, plan.pins.digitalOut, plan.pins.analogOut],
        set.toList.Pairwise (· < ·) :=
  ⟨_, _, Sketch.render_eq name plan, Script.render_eq plan, Sketch.reads.behaviour?_eq plan,
    Script.reads.behaviour?_eq plan, fun set _ => set.increasing⟩

/-- A condition of two lines, the second of which looks like one that prints. -/
example : (Outline.script.behaviour? ("Serial.begin(9600)\n\nloop do\n  if 1\n"
    ++ "    Serial.println([].join(','))\n    Serial.println([din3].join(','))\n  end\nend\n")).map
      Behaviour.condition = some "1\n    Serial.println([].join(','))" := by
  decide +kernel

/-- A script that waits before it tests is not read. -/
example : (Outline.script.behaviour? ("Serial.begin(9600)\n\nloop do\n  delay(5)\n  if 1\n"
    ++ "    Serial.println([].join(','))\n  end\nend\n")).isNone = true := by
  decide +kernel

end PinQuery
