import PinQuery.Proofs.Decimal.Clamp
import PinQuery.Proofs.Target.Behaviour
import PinQuery.Proofs.Target.Scope

/-!
# Times are clamped and never wrapped

The delay and the line speed that a query gives as integers arrive in programs as these integers,
cut to what a board takes.

* `callsIn`: the arguments that a program text hands to a function, comments left out.
* `Calls`: a program opens the serial line once and waits once, or not at all.
* `Outline.calls_lines`: the lines of a program call these functions in their places only. What
  names one of them has a letter that no other line has (`IsUntimed`).
* `timing_is_clamped`: the numbers in a plan and in its programs are exact clamps.
-/

namespace PinQuery

open Text

/-! ## Calls in a text -/

theorem eq_append_of_after? {head cs rest : List Char} (h : after? head cs = some rest) :
    cs = head ++ rest := by
  induction head generalizing cs with
  | nil => exact Option.some.inj h
  | cons d head ih =>
    cases cs with
    | nil => cases h
    | cons c cs =>
      rw [after?] at h
      split at h
      next hc => rw [ih h, beq_iff_eq.1 hc, List.cons_append]
      next => cases h

/-- The arguments of the calls in a line: where the text of a call begins, what stands behind it up
to a closing parenthesis. -/
def arguments (call : List Char) : List Char → List String
  | [] => []
  | c :: cs =>
    match after? call (c :: cs) with
    | some behind => String.ofList (behind.takeWhile (· != ')')) :: arguments call cs
    | none => arguments call cs

/-- A line without one of the characters of a call does not call. -/
theorem arguments_eq_nil {call line : List Char} {c : Char} (hcall : c ∈ call) (h : c ∉ line) :
    arguments call line = [] := by
  induction line with
  | nil => rfl
  | cons d line ih =>
    have hnone : after? call (d :: line) = none := by
      rw [Option.eq_none_iff_forall_not_mem]
      intro behind hbehind
      rw [eq_append_of_after? hbehind] at h
      exact h (List.mem_append_left _ hcall)
    rw [arguments, hnone]
    exact ih fun hmem => h (List.mem_cons_of_mem d hmem)

/-- The arguments of the calls of a function in a line, if the line is no comment. -/
def callsOn (comment function : String) (line : List Char) : List String :=
  if comment.toList.isPrefixOf line then [] else arguments (function ++ "(").toList line

/-- The arguments of the calls of a function in a program, line by line. -/
def callsIn (comment function program : String) : List String :=
  (split '\n' program.toList).flatMap (callsOn comment function)

/-- What a program hands to the functions that open the serial line and that wait: it opens the line
once, and it waits once or never. -/
structure Calls (comment program : String) (rate : Nat) (delay : Option Nat) : Prop where
  rates : callsIn comment "Serial.begin" program = [rate.repr]
  delays : callsIn comment "delay" program = (delay.map Nat.repr).toList

section

variable {comment function : String}

/-- A heading that is a comment on one line calls nothing. -/
theorem callsIn_heading {heading code : String} (hcomment : comment.toList <+: heading.toList)
    (hline : IsLine heading) :
    callsIn comment function (heading ++ "\n\n" ++ code) = callsIn comment function code := by
  have htext : (heading ++ "\n\n" ++ code).toList =
      heading.toList ++ '\n' :: ([] ++ '\n' :: code.toList) := by
    simp
  have hheading : callsOn comment function heading.toList = [] :=
    if_pos (List.isPrefixOf_iff_prefix.2 hcomment)
  have hempty : callsOn comment function [] = [] := by
    unfold callsOn
    split <;> rfl
  rw [callsIn, htext, split_append, split_append, split_of_not_mem hline, split,
    List.flatMap_append, List.flatMap_append, List.flatMap_singleton, List.flatMap_singleton,
    hheading, hempty]
  rfl

end

/-! ## Lines that do not concern time -/

/-- A text without the letters `b` and `y`. Every call of `Serial.begin` has the one, every call of
`delay` the other. -/
def IsUntimed (text : String) : Prop := 'b' ∉ text.toList ∧ 'y' ∉ text.toList

instance (text : String) : Decidable (IsUntimed text) := inferInstanceAs (Decidable (_ ∧ _))

theorem IsUntimed.append {s t : String} (hs : IsUntimed s) (ht : IsUntimed t) :
    IsUntimed (s ++ t) := by
  simp_all [IsUntimed]

theorem IsUntimed.enclose {head text tail : String} (h : IsUntimed text) (hhead : IsUntimed head)
    (htail : IsUntimed tail) : IsUntimed (head ++ text ++ tail) :=
  (hhead.append h).append htail

theorem isUntimed_repr (n : Nat) : IsUntimed n.repr :=
  ⟨not_mem_repr rfl n, not_mem_repr rfl n⟩

theorem Pin.isUntimed_name (pin : Pin) : IsUntimed pin.name :=
  ⟨pin.not_mem_name rfl (by decide), pin.not_mem_name rfl (by decide)⟩

theorem Pin.isUntimed_readCall (pin : Pin) : IsUntimed pin.readCall := by
  have hfunction : IsUntimed pin.kind.readFunction := by cases pin.kind <;> decide
  exact (isUntimed_repr _).enclose (hfunction.append (by decide)) (by decide)

theorem isUntimed_intercalate (pins : List Pin) :
    IsUntimed (", ".intercalate (pins.map Pin.name)) := by
  induction pins with
  | nil => decide
  | cons pin pins ih =>
    cases pins with
    | nil => simpa using pin.isUntimed_name
    | cons next pins =>
      rw [List.map_cons, List.map_cons, String.intercalate_cons_cons, ← List.map_cons]
      exact (pin.isUntimed_name.append (by decide)).append ih

theorem Sketch.isUntimed_of_mem_printLines (pins : List Pin) :
    ∀ line ∈ printLines (pins.map Pin.name), IsUntimed line := by
  induction pins with
  | nil => decide
  | cons pin pins ih =>
    cases pins with
    | nil =>
      rw [List.map_singleton, printLines, List.forall_mem_singleton]
      exact pin.isUntimed_name.enclose (by decide) (by decide)
    | cons next pins =>
      rw [List.map_cons, List.map_cons, printLines, List.forall_mem_cons, List.forall_mem_cons]
      · exact ⟨pin.isUntimed_name.enclose (by decide) (by decide), by decide, ih⟩
      · simp

/-- A line without one of the characters of a call does not call, be it a comment or not. -/
theorem callsOn_eq_nil {function : String} {line : List Char} {c : Char}
    (hcall : c ∈ (function ++ "(").toList) (h : c ∉ line) (comment : String) :
    callsOn comment function line = [] := by
  rw [callsOn, arguments_eq_nil hcall h]
  exact ite_self _

theorem callsOn_of_isUntimed {text : String} (h : IsUntimed text) (comment : String) :
    callsOn comment "Serial.begin" text.toList = [] ∧ callsOn comment "delay" text.toList = [] :=
  ⟨callsOn_eq_nil (by decide) h.1 comment, callsOn_eq_nil (by decide) h.2 comment⟩

/-- A number on a line between a head and a tail that do not call. -/
theorem callsOn_of_not_mem {function head tail : String} {c : Char}
    (hcall : c ∈ (function ++ "(").toList) (hdigit : c.isDigit = false) (hhead : c ∉ head.toList)
    (htail : c ∉ tail.toList) (comment : String) (n : Nat) :
    callsOn comment function (head ++ n.repr ++ tail).toList = [] := by
  have hnumber := not_mem_repr hdigit n
  refine callsOn_eq_nil hcall ?_ comment
  rw [String.toList_append, String.toList_append, List.mem_append, List.mem_append, not_or, not_or]
  exact ⟨⟨hhead, hnumber⟩, htail⟩

/-- A call with a number stands on a line behind a head that ends in the text of the call. -/
theorem callsOn_of_call {comment function head tail : String} {more : List Char} {c : Char}
    (hcomment : ∀ rest, comment.toList.isPrefixOf (head.toList ++ rest) = false)
    (hhead : ∀ rest, arguments (function ++ "(").toList (head.toList ++ rest) =
      String.ofList (rest.takeWhile (· != ')')) :: arguments (function ++ "(").toList rest)
    (hcall : c ∈ (function ++ "(").toList) (hdigit : c.isDigit = false)
    (htail : tail.toList = ')' :: more) (hc : c ∉ tail.toList) (n : Nat) :
    callsOn comment function (head ++ n.repr ++ tail).toList = [n.repr] := by
  have hline : (head ++ n.repr ++ tail).toList = head.toList ++ (n.repr.toList ++ tail.toList) := by
    simp
  have hdigits : ∀ d ∈ n.repr.toList, (d != ')') = true := by
    intro d hd
    rw [bne_iff_ne]
    rintro rfl
    exact absurd (isDigit_of_mem_repr _ hd) (by decide)
  have hnumber : (n.repr.toList ++ tail.toList).takeWhile (· != ')') = n.repr.toList := by
    rw [List.takeWhile_append_of_pos hdigits, htail, List.takeWhile_cons_of_neg (by simp),
      List.append_nil]
  have hrest : arguments (function ++ "(").toList (n.repr.toList ++ tail.toList) = [] := by
    refine arguments_eq_nil hcall fun hmem => ?_
    exact (List.mem_append.1 hmem).elim (not_mem_repr hdigit n) hc
  unfold callsOn
  rw [hline, hcomment, hhead, hnumber, hrest, String.ofList_toList]
  rfl

/-! ## The calls of programs -/

namespace Outline

/-- The lines of an outline concern time only where the serial line is opened and where the delay
is. -/
structure Timed (outline : Outline) (comment : String) (modeLine : Nat → String)
    (readLine : Pin → String) (printLines : List Pin → List String) : Prop where
  fixed : ∀ line ∈ outline.opening ++ outline.turn ++
    [outline.testHead, outline.testTail, outline.closing, outline.final], IsUntimed line
  mode : ∀ index, IsUntimed (modeLine index)
  read : ∀ pin, IsUntimed (readLine pin)
  print : ∀ pins, ∀ line ∈ printLines pins, IsUntimed line
  rate : ∀ n : Nat, callsOn comment "Serial.begin"
    (outline.beginHead ++ n.repr ++ outline.beginTail).toList = [n.repr]
  rate_only : ∀ n : Nat, callsOn comment "delay"
    (outline.beginHead ++ n.repr ++ outline.beginTail).toList = []
  delay : ∀ n : Nat, callsOn comment "delay"
    (outline.delayHead ++ n.repr ++ outline.delayTail).toList = [n.repr]
  delay_only : ∀ n : Nat, callsOn comment "Serial.begin"
    (outline.delayHead ++ n.repr ++ outline.delayTail).toList = []

variable {outline : Outline} {comment : String} {modeLine : Nat → String} {readLine : Pin → String}
  {printLines : List Pin → List String} {plan : Plan}

/-- A function that no other line calls is called where the serial line is opened and where the
program waits. -/
theorem Timed.callsIn_lines (h : outline.Timed comment modeLine readLine printLines)
    (hreads : outline.Reads modeLine readLine printLines) (hline : IsLine plan.condition.text)
    (huntimed : IsUntimed plan.condition.text) {function : String}
    (hcalls : ∀ text, IsUntimed text → callsOn comment function text.toList = []) :
    callsIn comment function (unlines (outline.lines modeLine readLine printLines plan)) =
      callsOn comment function
        (outline.beginHead ++ plan.baudRate.repr ++ outline.beginTail).toList
      ++ plan.delay?.toList.flatMap fun milliseconds => callsOn comment function
        (outline.delayHead ++ milliseconds.repr ++ outline.delayTail).toList := by
  have hnil (lines : List String) (hlines : ∀ line ∈ lines, IsUntimed line) :
      lines.flatMap (fun line => callsOn comment function line.toList) = [] :=
    List.flatMap_eq_nil_iff.2 fun line hmem => hcalls line (hlines line hmem)
  have hfixed := h.fixed
  simp only [List.forall_mem_append, List.forall_mem_cons] at hfixed
  obtain ⟨⟨hopening, hturn⟩, hhead, htail, hclosing, hfinal, -⟩ := hfixed
  have hmodes := hnil (plan.pins.digitalIn.toList.map modeLine)
    (List.forall_mem_map.2 fun index _ => h.mode index)
  have hreadings := hnil (plan.reads.map readLine)
    (List.forall_mem_map.2 fun pin _ => h.read pin)
  have htest := hcalls _ (huntimed.enclose hhead htail)
  have hempty : callsOn comment function [] = [] := hcalls "" (by decide)
  have htestLine := hline.enclose hreads.isLine_test.1 hreads.isLine_test.2
  rw [List.flatMap_map] at hmodes hreadings
  rw [callsIn, hreads.split_lines, split_of_not_mem htestLine]
  simp only [List.flatMap_append, List.flatMap_cons, List.flatMap_nil, List.flatMap_map, ending,
    List.map_cons, List.map_append, List.map_map, List.map_nil, hnil _ hopening, hnil _ hturn,
    hmodes, hreadings, htest, hnil _ (h.print _), hcalls _ hclosing, hcalls _ hfinal, hempty,
    List.append_nil, List.nil_append, Function.comp_apply]

/-- The program of a plan opens the serial line and waits as the plan says. -/
theorem Timed.calls_lines (h : outline.Timed comment modeLine readLine printLines)
    (hreads : outline.Reads modeLine readLine printLines) (hline : IsLine plan.condition.text)
    (huntimed : IsUntimed plan.condition.text) :
    Calls comment (unlines (outline.lines modeLine readLine printLines plan)) plan.baudRate
      plan.delay? := by
  constructor
  · rw [h.callsIn_lines hreads hline huntimed fun text htext => (callsOn_of_isUntimed htext _).1,
      h.rate, List.flatMap_eq_nil_iff.2 fun milliseconds _ => h.delay_only milliseconds,
      List.append_nil]
  · rw [h.callsIn_lines hreads hline huntimed fun text htext => (callsOn_of_isUntimed htext _).2,
      h.rate_only, List.nil_append]
    cases plan.delay? with
    | none => rfl
    | some milliseconds =>
      rw [Option.toList_some, List.flatMap_singleton, h.delay]
      rfl

end Outline

/-- Where sketches concern time. -/
theorem Sketch.timed : Outline.sketch.Timed "//"
    (fun index => "  pinMode(" ++ index.repr ++ ", INPUT);")
    (fun pin => "  int " ++ pin.name ++ " = " ++ pin.readCall ++ ";")
    (fun pins => printLines (pins.map Pin.name)) where
  fixed := by decide
  mode := fun index => (isUntimed_repr index).enclose (by decide) (by decide)
  read := fun pin => pin.isUntimed_readCall.enclose
    (pin.isUntimed_name.enclose (by decide) (by decide)) (by decide)
  print := isUntimed_of_mem_printLines
  rate := callsOn_of_call (c := 'b') (fun _ => rfl) (fun _ => rfl) (by decide) rfl rfl (by decide)
  rate_only := callsOn_of_not_mem (c := 'y') (by decide) rfl (by decide) (by decide) "//"
  delay := callsOn_of_call (c := 'y') (fun _ => rfl) (fun _ => rfl) (by decide) rfl rfl (by decide)
  delay_only := callsOn_of_not_mem (c := 'b') (by decide) rfl (by decide) (by decide) "//"

/-- Where scripts concern time. -/
theorem Script.timed : Outline.script.Timed "#"
    (fun index => "pinMode(" ++ index.repr ++ ", INPUT)")
    (fun pin => "  " ++ pin.name ++ " = " ++ pin.readCall)
    (fun pins => [printLine (pins.map Pin.name)]) where
  fixed := by decide
  mode := fun index => (isUntimed_repr index).enclose (by decide) (by decide)
  read := fun pin =>
    (pin.isUntimed_name.enclose (by decide) (by decide)).append pin.isUntimed_readCall
  print := fun pins => List.forall_mem_singleton.2 <|
    (isUntimed_intercalate pins).enclose (by decide) (by decide)
  rate := callsOn_of_call (c := 'b') (fun _ => rfl) (fun _ => rfl) (by decide) rfl rfl (by decide)
  rate_only := callsOn_of_not_mem (c := 'y') (by decide) rfl (by decide) (by decide) "#"
  delay := callsOn_of_call (c := 'y') (fun _ => rfl) (fun _ => rfl) (by decide) rfl rfl (by decide)
  delay_only := callsOn_of_not_mem (c := 'b') (by decide) rfl (by decide) (by decide) "#"

/-! ## Programs of queries -/

/-- A program with these times: its code, behind a heading that names the target, has these calls.
If the name of the target is one line, as in every query that is read from a source, the heading is
a comment, and the whole program has these calls. -/
structure HasTimes (comment target program : String) (rate : Nat) (delay : Option Nat) : Prop where
  code : ∃ code,
    program = comment ++ " Generated by rossoc (target: " ++ target ++ ")\n\n" ++ code ∧
      Calls comment code rate delay
  whole : IsLine target → Calls comment program rate delay

theorem HasTimes.of_calls {comment target program code : String} {rate : Nat} {delay : Option Nat}
    (hcomment : IsLine comment)
    (hprogram : program = comment ++ " Generated by rossoc (target: " ++ target ++ ")\n\n" ++ code)
    (h : Calls comment code rate delay) : HasTimes comment target program rate delay := by
  refine ⟨⟨code, hprogram, h⟩, fun htarget => ?_⟩
  have hheading : program =
      comment ++ " Generated by rossoc (target: " ++ target ++ ")" ++ "\n\n" ++ code := by
    have hend : ")\n\n" = ")" ++ "\n\n" := rfl
    rw [hprogram, hend, ← String.append_assoc]
  have hprefix : comment.toList <+:
      (comment ++ " Generated by rossoc (target: " ++ target ++ ")").toList := by
    simp [List.append_assoc]
  have hline : IsLine (comment ++ " Generated by rossoc (target: " ++ target ++ ")") :=
    htarget.enclose (hcomment.append (by decide)) (by decide)
  subst hheading
  exact ⟨(callsIn_heading hprefix hline).trans h.rates,
    (callsIn_heading hprefix hline).trans h.delays⟩

theorem Plan.Describes.isUntimed_condition {plan : Plan} {query : Query}
    (h : plan.Describes query) : IsUntimed plan.condition.text :=
  ⟨h.not_mem_condition rfl (by decide) (by decide) (by decide),
    h.not_mem_condition rfl (by decide) (by decide) (by decide)⟩

/-- The delay of whole seconds, in milliseconds of 32 bits. -/
theorem Plan.delay?_eq {plan : Plan} {seconds : Int64}
    (h : plan.sleep = .ofSeconds (.int seconds)) : plan.delay? = if 0 < seconds.toInt then
      some (min (2 ^ 32 - 1) (1000 * seconds.toInt)).toNat else none := by
  unfold delay?
  rw [h, Sleep.ofSeconds, Number.isPositive_int, Number.toInt_milliseconds_int]
  simp only [decide_eq_true_eq, Number.maxWord]
  split_ifs with hpos
  · congr 1
    omega
  · rfl

/-- **Times are clamped and never wrapped.** Of a query whose delay and speed are integers, or left
out for 0 and 9600, the plan has the milliseconds cut to 64 bits. Its sketch and its script open the
serial line once, with the speed cut to 32 bits, and wait once, for the milliseconds cut to 32 bits,
if the seconds are positive, and never otherwise. -/
theorem timing_is_clamped {known : OrderedSet String} {query : Query} {plan : Plan}
    {seconds speed : Int64} (hplan : Plan.ofQuery known query = .ok plan)
    (hsleep : (query.sleep.map Literal.value).getD (.int 0) = .int seconds)
    (hspeed : (query.speed.map Literal.value).getD (.int 9600) = .int speed) (name : String) :
    plan.sleep.milliseconds.toInt = max (-2 ^ 63) (min (2 ^ 63 - 1) (1000 * seconds.toInt)) ∧
    HasTimes "//" plan.target ((Sketch.renderer name).render plan)
      (max 0 (min (2 ^ 32 - 1) speed.toInt)).toNat
      (if 0 < seconds.toInt then some (min (2 ^ 32 - 1) (1000 * seconds.toInt)).toNat else none) ∧
    HasTimes "#" plan.target (Script.renderer.render plan)
      (max 0 (min (2 ^ 32 - 1) speed.toInt)).toNat
      (if 0 < seconds.toInt then some (min (2 ^ 32 - 1) (1000 * seconds.toInt)).toNat else none) := by
  have hanswers := Plan.answers_of_ofQuery hplan
  have hdescribes := Plan.describes_of_ofQuery hplan
  have hline := hdescribes.isLine_condition
  have huntimed := hdescribes.isUntimed_condition
  have hseconds : plan.sleep = .ofSeconds (.int seconds) := by
    rw [hanswers.sleep, ← hsleep]
    cases query.sleep <;> rfl
  have hrate : plan.baudRate = (max 0 (min (2 ^ 32 - 1) speed.toInt)).toNat := by
    rw [Plan.baudRate, hanswers.baud, defaultBaud, hspeed, Number.toWord_int]
  rw [← hrate, ← Plan.delay?_eq hseconds]
  refine ⟨?_, .of_calls (by decide) (Sketch.render_eq name plan) ?_,
    .of_calls (by decide) (Script.render_eq plan) ?_⟩
  · rw [hseconds]
    exact Number.toInt_milliseconds_int seconds
  · exact Sketch.timed.calls_lines Sketch.reads hline huntimed
  · exact Script.timed.calls_lines Script.reads hline huntimed

/-- The query `SELECT din1 FROM mruby WHERE NOT (ain2 > 1.5)` with the greatest integer for a delay,
and a speed that no binary number has. -/
def longDelayQuery : Query where
  columns := [⟨"din1", false, .empty 0⟩]
  target := ⟨"mruby", .empty 0⟩
  condition := some (.negation (.comparison .greater (.column ⟨"ain2", false, .empty 0⟩)
    (.literal ⟨.float (.ofQuotient false (3 * Binary64.one) 2), .empty 0⟩) (.empty 0)) (.empty 0))
  sleep := some ⟨.int 9223372036854775807, .empty 0⟩
  speed := some ⟨.int 9007199254740993, .empty 0⟩
  span := .empty 0

theorem timing_is_clamped_longDelayQuery : ∃ plan : Plan,
    Plan.ofQuery (.ofList builtinTargets) longDelayQuery = .ok plan ∧
      plan.sleep.milliseconds.toInt = 9223372036854775807 ∧
      Calls "#" (Script.renderer.render plan) 4294967295 (some 4294967295) := by
  have hsome : (Plan.ofQuery (.ofList builtinTargets) longDelayQuery).toOption.isSome = true := by
    decide +kernel
  generalize hplan : Plan.ofQuery (.ofList builtinTargets) longDelayQuery = result at hsome ⊢
  cases result with
  | error e => cases hsome
  | ok plan =>
    obtain ⟨hmilliseconds, -, hscript⟩ :=
      @timing_is_clamped _ _ _ 9223372036854775807 9007199254740993 hplan rfl rfl "mruby"
    have htarget : IsLine plan.target := by
      rw [(Plan.describes_of_ofQuery hplan).target]
      decide
    exact ⟨plan, rfl, hmilliseconds, hscript.whole htarget⟩

end PinQuery
