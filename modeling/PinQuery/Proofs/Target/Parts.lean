import PinQuery.Proofs.Target.Program

/-!
# The parts of programs

The text of a program falls into the parts of its plan.

* `Dialect.HasParts`: the statements of a text are those of the parts, and no other line of it names
  a function that sets or reads pins.
* `hasParts_sketch` and `hasParts_script`: the program of a plan has the parts of the plan.
-/

namespace PinQuery

open Text

/-! ## Lines with and without statements -/

/-- The functions that set and read pins. -/
def pinFunctions : List String := ["pinMode", "digitalRead", "analogRead"]

/-- A text that names none of the functions of pins. -/
def IsSilent (cs : List Char) : Prop := ∀ name ∈ Dialect.namesIn cs, name ∉ pinFunctions

instance (cs : List Char) : Decidable (IsSilent cs) := List.decidableBAll _ _

namespace Dialect

/-- A line is a statement, or it names none of the functions of pins. -/
def Covers (dialect : Dialect) (line : List Char) : Prop :=
  (dialect.statement? line).isSome = true ∨ IsSilent line

/-- A program has the given parts: its statements are theirs, and nothing else in it sets or reads
pins. -/
structure HasParts (dialect : Dialect) (program : String) (parts : ProgramParts) : Prop where
  statements_eq : dialect.statements program = parts.statements
  covers : ∀ line ∈ split '\n' program.toList, dialect.Covers line

theorem Covers.of_statement? {dialect : Dialect} {line : List Char} {statement : Statement}
    (h : dialect.statement? line = some statement) : dialect.Covers line :=
  .inl (by rw [h]; rfl)

end Dialect

theorem Dialect.HasParts.unlines {dialect : Dialect} {lines : List String} {parts : ProgramParts}
    (hempty : dialect.statement? [] = none) (hlines : ∀ line ∈ lines, IsLine line)
    (hcovers : ∀ line ∈ lines, dialect.Covers line.toList)
    (hparts : (lines.map String.toList).filterMap dialect.statement? = parts.statements) :
    dialect.HasParts (unlines lines) parts := by
  refine ⟨?_, ?_⟩
  · rw [statements, split_unlines hlines, List.filterMap_append, List.filterMap_cons_none hempty,
      List.filterMap_nil, List.append_nil, hparts]
  · rw [split_unlines hlines, List.forall_mem_append, List.forall_mem_map,
      List.forall_mem_singleton]
    exact ⟨hcovers, .inr (by decide)⟩

/-! ## Numbers and names in lines -/

theorem isLine_of_isWordPart {text : String}
    (h : ∀ c ∈ text.toList, Scan.isWordPart c = true) : IsLine text :=
  fun hmem => absurd (h '\n' hmem) (by decide)

theorem isDigit_of_mem_repr {n : Nat} : ∀ c ∈ n.repr.toList, c.isDigit = true := by
  intro c hc
  rw [Nat.toList_repr] at hc
  exact Nat.isDigit_of_mem_toDigits (by decide) (by decide) hc

theorem isLine_repr (n : Nat) : IsLine n.repr :=
  isLine_of_isWordPart fun c hc => Scan.isWordPart_of_isDigit (isDigit_of_mem_repr c hc)

theorem Pin.isLine_name (pin : Pin) : IsLine pin.name :=
  isLine_of_isWordPart pin.isWordPart_of_mem_name

theorem Pin.isLine_of_mem_names (pins : List Pin) :
    ∀ text ∈ pins.map name, IsLine text := by
  rw [List.forall_mem_map]
  exact fun pin _ => pin.isLine_name

theorem Pin.isLine_readCall (pin : Pin) : IsLine pin.readCall :=
  (isLine_repr _).enclose
    ((isLine_of_isWordPart pin.kind.isWordPart_readFunction).append (by decide)) (by decide)

theorem IsSilent.enclose {head cs tail : List Char} {c d : Char} (h : IsSilent cs)
    (hhead : IsSilent head) (htail : IsSilent tail) (hc : Scan.isWordPart c = false)
    (hd : Scan.isWordPart d = false) : IsSilent (head ++ c :: (cs ++ d :: tail)) := by
  intro name hname
  rw [Dialect.namesIn_append_cons hc, Dialect.namesIn_append_cons hd, List.mem_append,
    List.mem_append] at hname
  rcases hname with hname | hname | hname
  · exact hhead name hname
  · exact h name hname
  · exact htail name hname

theorem Dialect.namesIn_repr (n : Nat) : namesIn n.repr.toList = [n.repr] := by
  rw [namesIn_word (fun c hc => Scan.isWordPart_of_isDigit (isDigit_of_mem_repr c hc))
    (by rw [Nat.toList_repr]; exact Nat.toDigits_ne_nil), String.ofList_toList]

theorem isSilent_repr (n : Nat) : IsSilent n.repr.toList := by
  have hletter : pinFunctions.any (fun name => name.toList.all Char.isDigit) = false := by decide
  rw [IsSilent, Dialect.namesIn_repr, List.forall_mem_singleton]
  intro hmem
  exact List.any_eq_false.1 hletter _ hmem (List.all_eq_true.2 isDigit_of_mem_repr)

/-! ## Lines of programs, one by one -/

/-- What holds of every kind of line holds of all lines of a sketch. -/
theorem Sketch.forall_mem_lines {P : String → Prop} {plan : Plan}
    (hgenerated : P ("// Generated by rossoc (target: " ++ plan.target ++ ")"))
    (hfixed : ∀ line ∈ ["", "void setup() \x7b", "\x7d", "void loop() \x7b", "  \x7d"], P line)
    (hbegin : ∀ n : Nat, P ("  Serial.begin(" ++ n.repr ++ ");"))
    (hmode : ∀ n : Nat, P ("  pinMode(" ++ n.repr ++ ", INPUT);"))
    (hread : ∀ pin : Pin, P ("  int " ++ pin.name ++ " = " ++ pin.readCall ++ ";"))
    (htest : P ("  if (" ++ plan.condition.text ++ ") \x7b"))
    (hprint : ∀ line ∈ printLines (plan.prints.map Pin.name), P line)
    (hdelay : ∀ n : Nat, P ("  delay(" ++ n.repr ++ ");")) : ∀ line ∈ lines plan, P line := by
  have hmodes : ∀ line ∈ modeLines plan, P line := by
    rw [modeLines, List.forall_mem_map]
    exact fun index _ => hmode index
  have hreads : ∀ line ∈ readLines plan, P line := by
    rw [readLines, List.forall_mem_map]
    exact fun pin _ => hread pin
  have hdelays : ∀ line ∈ delayLines plan, P line := by
    unfold delayLines
    split
    next milliseconds _ => exact List.forall_mem_singleton.2 (hdelay milliseconds)
    next => exact List.forall_mem_nil _
  simp only [List.forall_mem_cons] at hfixed
  obtain ⟨hempty, hsetup, hclose, hloop, hclose', -⟩ := hfixed
  simp only [lines, List.forall_mem_append, List.forall_mem_cons]
  exact ⟨⟨⟨⟨⟨⟨⟨⟨⟨hgenerated, hempty, hsetup, hbegin _, List.forall_mem_nil _⟩, hmodes⟩,
    hclose, hempty, hloop, List.forall_mem_nil _⟩, hreads⟩, htest, List.forall_mem_nil _⟩, hprint⟩,
    hclose', List.forall_mem_nil _⟩, hdelays⟩, hclose, List.forall_mem_nil _⟩

/-- What holds of every kind of line holds of all lines of a script. -/
theorem Script.forall_mem_lines {P : String → Prop} {plan : Plan}
    (hgenerated : P ("# Generated by rossoc (target: " ++ plan.target ++ ")"))
    (hfixed : ∀ line ∈ ["", "loop do", "  end", "end"], P line)
    (hbegin : ∀ n : Nat, P ("Serial.begin(" ++ n.repr ++ ")"))
    (hmode : ∀ n : Nat, P ("pinMode(" ++ n.repr ++ ", INPUT)"))
    (hread : ∀ pin : Pin, P ("  " ++ pin.name ++ " = " ++ pin.readCall))
    (htest : P ("  if " ++ plan.condition.text))
    (hprint : P (printLine (plan.prints.map Pin.name)))
    (hdelay : ∀ n : Nat, P ("  delay(" ++ n.repr ++ ")")) : ∀ line ∈ lines plan, P line := by
  have hmodes : ∀ line ∈ modeLines plan, P line := by
    rw [modeLines, List.forall_mem_map]
    exact fun index _ => hmode index
  have hreads : ∀ line ∈ readLines plan, P line := by
    rw [readLines, List.forall_mem_map]
    exact fun pin _ => hread pin
  have hdelays : ∀ line ∈ delayLines plan, P line := by
    unfold delayLines
    split
    next milliseconds _ => exact List.forall_mem_singleton.2 (hdelay milliseconds)
    next => exact List.forall_mem_nil _
  simp only [List.forall_mem_cons] at hfixed
  obtain ⟨hempty, hloop, hend, hend', -⟩ := hfixed
  simp only [lines, List.forall_mem_append, List.forall_mem_cons]
  exact ⟨⟨⟨⟨⟨⟨⟨⟨⟨hgenerated, hempty, hbegin _, List.forall_mem_nil _⟩, hmodes⟩,
    hempty, hloop, List.forall_mem_nil _⟩, hreads⟩, htest, List.forall_mem_nil _⟩,
    hprint, List.forall_mem_nil _⟩, hend, List.forall_mem_nil _⟩, hdelays⟩,
    hend', List.forall_mem_nil _⟩

theorem Sketch.isLine_of_mem_printLines {names : List String} (h : ∀ name ∈ names, IsLine name) :
    ∀ line ∈ printLines names, IsLine line := by
  induction names with
  | nil => decide
  | cons name names ih =>
    have hname := h name (by simp)
    cases names with
    | nil =>
      rw [printLines, List.forall_mem_singleton]
      exact hname.enclose (by decide) (by decide)
    | cons next names =>
      rw [printLines, List.forall_mem_cons, List.forall_mem_cons]
      · exact ⟨hname.enclose (by decide) (by decide), by decide,
          ih fun name hmem => h name (by simp_all)⟩
      · simp

theorem Sketch.covers_of_mem_printLines (pins : List Pin) :
    ∀ line ∈ printLines (pins.map Pin.name), Dialect.sketch.Covers line.toList := by
  induction pins with
  | nil =>
    rw [List.map_nil, printLines, List.forall_mem_singleton]
    exact .inr (by decide)
  | cons pin pins ih =>
    cases pins with
    | nil =>
      rw [List.map_cons, List.map_nil, printLines, List.forall_mem_singleton]
      exact .of_statement? (statement?_printlnLine pin.name)
    | cons next pins =>
      rw [List.map_cons, List.map_cons, printLines, List.forall_mem_cons, List.forall_mem_cons]
      · exact ⟨.of_statement? (statement?_printLine pin.name), .inr (by decide), ih⟩
      · simp

section

variable {plan : Plan}

theorem Sketch.isLine_of_mem_lines (hcondition : IsLine plan.condition.text)
    (htarget : IsLine plan.target) : ∀ line ∈ lines plan, IsLine line := by
  refine forall_mem_lines (htarget.enclose (by decide) (by decide)) (by decide)
    (fun n => (isLine_repr n).enclose (by decide) (by decide))
    (fun n => (isLine_repr n).enclose (by decide) (by decide)) (fun pin => ?_)
    (hcondition.enclose (by decide) (by decide))
    (isLine_of_mem_printLines (Pin.isLine_of_mem_names _))
    (fun n => (isLine_repr n).enclose (by decide) (by decide))
  exact pin.isLine_readCall.enclose (pin.isLine_name.enclose (by decide) (by decide)) (by decide)

theorem Script.isLine_of_mem_lines (hcondition : IsLine plan.condition.text)
    (htarget : IsLine plan.target) : ∀ line ∈ lines plan, IsLine line := by
  refine forall_mem_lines (htarget.enclose (by decide) (by decide)) (by decide)
    (fun n => (isLine_repr n).enclose (by decide) (by decide))
    (fun n => (isLine_repr n).enclose (by decide) (by decide)) (fun pin => ?_)
    (IsLine.append (by decide) hcondition) ?_
    (fun n => (isLine_repr n).enclose (by decide) (by decide))
  · exact (pin.isLine_name.enclose (by decide) (by decide)).append pin.isLine_readCall
  · exact (isLine_intercalate (by decide) (Pin.isLine_of_mem_names _)).enclose (by decide)
      (by decide)

theorem Sketch.covers_of_mem_lines (htarget : IsSilent plan.target.toList) :
    ∀ line ∈ lines plan, Dialect.sketch.Covers line.toList := by
  refine forall_mem_lines (.inr ?_) ?_ (fun n => .inr ?_)
    (fun n => .of_statement? (statement?_modeLine n))
    (fun pin => .of_statement? (statement?_readLine pin))
    (.of_statement? (statement?_testLine _)) (covers_of_mem_printLines _) (fun n => .inr ?_)
  · have hline : ("// Generated by rossoc (target: " ++ plan.target ++ ")").toList =
        "// Generated by rossoc (target:".toList ++ ' ' :: (plan.target.toList ++ ')' :: []) := by
      simp
    rw [hline]
    exact htarget.enclose (by decide) (by decide) rfl rfl
  · have hsilent : ∀ line ∈ ["", "void setup() \x7b", "\x7d", "void loop() \x7b", "  \x7d"],
        IsSilent line.toList := by decide
    exact fun line hline => .inr (hsilent line hline)
  · have hline : ("  Serial.begin(" ++ n.repr ++ ");").toList =
        "  Serial.begin".toList ++ '(' :: (n.repr.toList ++ ')' :: [';']) := by simp
    rw [hline]
    exact (isSilent_repr n).enclose (by decide) (by decide) rfl rfl
  · have hline : ("  delay(" ++ n.repr ++ ");").toList =
        "  delay".toList ++ '(' :: (n.repr.toList ++ ')' :: [';']) := by simp
    rw [hline]
    exact (isSilent_repr n).enclose (by decide) (by decide) rfl rfl

theorem Script.covers_of_mem_lines (htarget : IsSilent plan.target.toList) :
    ∀ line ∈ lines plan, Dialect.script.Covers line.toList := by
  refine forall_mem_lines (.inr ?_) ?_ (fun n => .inr ?_)
    (fun n => .of_statement? (statement?_modeLine n))
    (fun pin => .of_statement? (statement?_readLine pin))
    (.of_statement? (statement?_testLine _)) (.of_statement? (statement?_printLine _))
    (fun n => .inr ?_)
  · have hline : ("# Generated by rossoc (target: " ++ plan.target ++ ")").toList =
        "# Generated by rossoc (target:".toList ++ ' ' :: (plan.target.toList ++ ')' :: []) := by
      simp
    rw [hline]
    exact htarget.enclose (by decide) (by decide) rfl rfl
  · have hsilent : ∀ line ∈ ["", "loop do", "  end", "end"], IsSilent line.toList := by decide
    exact fun line hline => .inr (hsilent line hline)
  · have hline : ("Serial.begin(" ++ n.repr ++ ")").toList =
        "Serial.begin".toList ++ '(' :: (n.repr.toList ++ ')' :: []) := by simp
    rw [hline]
    exact (isSilent_repr n).enclose (by decide) (by decide) rfl rfl
  · have hline : ("  delay(" ++ n.repr ++ ")").toList =
        "  delay".toList ++ '(' :: (n.repr.toList ++ ')' :: []) := by simp
    rw [hline]
    exact (isSilent_repr n).enclose (by decide) (by decide) rfl rfl

/-! ## Programs as wholes -/

variable (hcondition : IsLine plan.condition.text) (htarget : IsLine plan.target)
  (hsilent : IsSilent plan.target.toList)
include hcondition htarget hsilent

/-- **A sketch does what its plan says.** -/
theorem hasParts_sketch : ∃ vars : List (List String),
    Dialect.sketch.HasParts (unlines (Sketch.lines plan)) (plan.parts vars) ∧
      vars.flatten = plan.prints.map Pin.name := by
  obtain ⟨vars, hlines, hvars⟩ := Sketch.filterMap_lines plan
  exact ⟨vars, .unlines rfl (Sketch.isLine_of_mem_lines hcondition htarget)
    (Sketch.covers_of_mem_lines hsilent) hlines, hvars⟩

/-- **A script does what its plan says.** -/
theorem hasParts_script :
    Dialect.script.HasParts (unlines (Script.lines plan))
      (plan.parts [plan.prints.map Pin.name]) :=
  .unlines rfl (Script.isLine_of_mem_lines hcondition htarget) (Script.covers_of_mem_lines hsilent)
    (Script.filterMap_lines plan)

end

end PinQuery
