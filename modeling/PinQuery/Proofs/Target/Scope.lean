import Mathlib.Data.List.Nodup
import PinQuery.Proofs.Compile
import PinQuery.Proofs.Target.Characters
import PinQuery.Proofs.Target.Parts

/-!
# Programs are well scoped

The program of a source reads the pins that the query names, and uses nothing else.

* `Plan.Describes.isLine_condition`: the text of a condition is one line.
* `Plan.Describes.mem_reads` and `Plan.Describes.mem_prints`: the pins of a plan by their names in
  the query.
* `ProgramParts.WellScoped` says what it means that a program fits a query.
* `wellScoped_of_compile`: the programs of sketches and scripts fit their queries.
-/

namespace PinQuery

open Text

/-! ## Texts on one line -/

theorem Number.isLine_text (number : Number) : IsLine number.text :=
  number.not_mem_text rfl (by decide)

theorem Plan.Describes.isLine_condition {plan : Plan} {query : Query} (h : plan.Describes query) :
    IsLine plan.condition.text :=
  h.not_mem_condition rfl (by decide) (by decide) (by decide)

/-! ## Pins of a plan -/

namespace Query

/-- The names anywhere in a query. -/
def names (query : Query) : List String := query.columnNames ++ query.conditionNames

end Query

namespace OrderedSet

theorem nodup_toList (set : OrderedSet Nat) : set.toList.Nodup :=
  set.increasing.imp fun h => Nat.ne_of_lt h

end OrderedSet

theorem nodup_pins {digital analog : OrderedSet Nat} :
    (digital.toList.map (Pin.mk .digital) ++ analog.toList.map (Pin.mk .analog)).Nodup := by
  have hmk (kind : PinKind) : Function.Injective (Pin.mk kind) := fun i j h => (Pin.mk.inj h).2
  rw [List.nodup_append]
  exact ⟨List.Nodup.map (hmk .digital) digital.nodup_toList,
    List.Nodup.map (hmk .analog) analog.nodup_toList, by simp⟩

namespace Plan

theorem nodup_reads (plan : Plan) : plan.reads.Nodup := nodup_pins

theorem nodup_prints (plan : Plan) : plan.prints.Nodup := nodup_pins

namespace Describes

variable {plan : Plan} {query : Query} (h : plan.Describes query)
include h

/-- The pins that are read are those named in the query. -/
theorem mem_reads (pin : Pin) : pin ∈ plan.reads ↔ pin.name ∈ query.names := by
  rw [Query.names, List.mem_append, ← Query.mem_usage.1]
  obtain ⟨kind, index⟩ := pin
  obtain ⟨hdigital, hanalog, -, -⟩ := PinUsage.mem_pins h.pins index
  cases kind with
  | digital => simp [reads, ← hdigital, OrderedSet.mem_def]
  | analog => simp [reads, ← hanalog, OrderedSet.mem_def]

/-- The pins that are printed are those named in the columns. -/
theorem mem_prints (pin : Pin) : pin ∈ plan.prints ↔ pin.name ∈ query.columnNames := by
  rw [← Query.mem_usage.2]
  obtain ⟨kind, index⟩ := pin
  obtain ⟨-, -, hdigital, hanalog⟩ := PinUsage.mem_pins h.pins index
  cases kind with
  | digital => simp [prints, ← hdigital, OrderedSet.mem_def]
  | analog => simp [prints, ← hanalog, OrderedSet.mem_def]

theorem isPinName_of_mem_names : ∀ name ∈ query.names, IsPinName name := by
  rw [Query.names, List.forall_mem_append]
  refine ⟨h.columns, ?_⟩
  unfold Query.conditionNames
  split
  next => simp
  next e he => exact (h.condition e he).isPinName_of_mem_names

end Describes

end Plan

/-! ## Programs of sources -/

/-- The numbers that a source spells are finite. -/
theorem Expr.IsCondition.hasFiniteNumbers {e : Expr} (h : e.IsCondition) : e.HasFiniteNumbers := by
  have hoperand {e : Expr} (h : e.IsOperand) : ∀ number ∈ e.numbers, number.IsFinite := by
    cases h with
    | column hname => simp [numbers]
    | @literal literal hnumber =>
      rw [numbers, List.forall_mem_singleton]
      generalize literal.value = number at hnumber
      cases number with
      | int value => trivial
      | float value => exact hnumber
  unfold HasFiniteNumbers
  induction h with
  | comparison hleft hright =>
    rw [numbers, List.forall_mem_append]
    exact ⟨hoperand hleft, hoperand hright⟩
  | logical _ _ ihleft ihright =>
    rw [numbers, List.forall_mem_append]
    exact ⟨ihleft, ihright⟩
  | negation _ ih => exact ih

/-- The names in the text of the loop condition are names of the query. -/
theorem Plan.Describes.lex_condition {plan : Plan} {query : Query} (h : plan.Describes query)
    (hfinite : ∀ e ∈ query.condition, e.HasFiniteNumbers) : ∃ tokens,
      C.lex plan.condition.text.toList = some tokens ∧
        ∀ name, .name name ∈ tokens ↔ name ∈ query.conditionNames := by
  unfold Query.conditionNames
  cases hcondition : query.condition with
  | none =>
    have hlex : C.lex "1".toList = some [.numeral ['1']] :=
      (C.LexesTo.numeral (Numeral.ofNat 1)).lex_eq
    rw [h.always hcondition]
    exact ⟨_, hlex, by simp⟩
  | some e =>
    obtain ⟨text, htext, htest⟩ := h.test e hcondition
    obtain ⟨text', tokens, htext', hlex, hderives⟩ :=
      (h.condition e hcondition).derives_iff (hfinite e hcondition)
    obtain rfl : text' = text := Except.ok.inj (htext'.symm.trans htext)
    rw [htest]
    refine ⟨tokens, hlex, fun name => ?_⟩
    rw [((hderives _).2 rfl).name_mem_iff, Expr.names_target]

/-- A program fits a query. Every pin that the query names is read once, into a variable with its
name and by the function for its kind, and no other pin is. The condition and the output use these
variables only. Every column is printed once, and every digital pin is made an input once. -/
structure ProgramParts.WellScoped (parts : ProgramParts) (query : Query) : Prop where
  vars_nodup : (parts.readings.map Reading.var).Nodup
  mem_vars : ∀ name, name ∈ parts.readings.map Reading.var ↔ name ∈ query.names
  readings : ∀ reading ∈ parts.readings, ∃ index : Nat,
    reading = ⟨"din" ++ index.repr, "digitalRead", index.repr⟩ ∨
      reading = ⟨"ain" ++ index.repr, "analogRead", index.repr⟩
  condition : ∃ tokens, C.lex parts.condition.toList = some tokens ∧
    ∀ name, .name name ∈ tokens → name ∈ parts.readings.map Reading.var
  printed_read : ∀ name ∈ parts.vars.flatten, name ∈ parts.readings.map Reading.var
  printed_nodup : parts.vars.flatten.Nodup
  mem_printed : ∀ name, name ∈ parts.vars.flatten ↔ name ∈ query.columnNames
  modes_nodup : parts.modes.Nodup
  mem_modes : ∀ argument, argument ∈ parts.modes ↔
    ∃ index : Nat, argument = index.repr ∧ "din" ++ index.repr ∈ query.names

/-- The program of a plan fits the query that the plan describes. -/
theorem Plan.Describes.wellScoped {plan : Plan} {query : Query} (h : plan.Describes query)
    (hfinite : ∀ e ∈ query.condition, e.HasFiniteNumbers) {vars : List (List String)}
    (hvars : vars.flatten = plan.prints.map Pin.name) : (plan.parts vars).WellScoped query := by
  have hnames : (plan.parts vars).readings.map Reading.var = plan.reads.map Pin.name := by
    simp [parts, Pin.reading]
  have hname : Function.Injective Pin.name := fun pin pin' => Pin.name_inj.1
  have hmem (name : String) : name ∈ plan.reads.map Pin.name ↔ name ∈ query.names := by
    rw [List.mem_map]
    constructor
    · rintro ⟨pin, hpin, rfl⟩
      exact (h.mem_reads pin).1 hpin
    · intro hmem
      obtain ⟨pin, -, rfl⟩ := isPinName_iff.1 (h.isPinName_of_mem_names name hmem)
      exact ⟨pin, (h.mem_reads pin).2 hmem, rfl⟩
  have hprinted (name : String) : name ∈ vars.flatten ↔ name ∈ query.columnNames := by
    rw [hvars, List.mem_map]
    constructor
    · rintro ⟨pin, hpin, rfl⟩
      exact (h.mem_prints pin).1 hpin
    · intro hmem
      obtain ⟨pin, -, rfl⟩ := isPinName_iff.1 (h.columns name hmem)
      exact ⟨pin, (h.mem_prints pin).2 hmem, rfl⟩
  refine ⟨?_, ?_, ?_, ?_, ?_, ?_, hprinted, ?_, ?_⟩
  · rw [hnames]
    exact List.Nodup.map hname plan.nodup_reads
  · rw [hnames]
    exact hmem
  · intro reading hreading
    obtain ⟨⟨kind, index⟩, -, rfl⟩ := List.mem_map.1 hreading
    cases kind with
    | digital => exact ⟨index, .inl rfl⟩
    | analog => exact ⟨index, .inr rfl⟩
  · obtain ⟨tokens, hlex, htokens⟩ := h.lex_condition hfinite
    refine ⟨tokens, hlex, fun name htoken => ?_⟩
    rw [hnames, hmem, Query.names]
    exact List.mem_append_right _ ((htokens name).1 htoken)
  · intro name hname
    rw [hnames, hmem, Query.names]
    exact List.mem_append_left _ ((hprinted name).1 hname)
  · change vars.flatten.Nodup
    rw [hvars]
    exact List.Nodup.map hname plan.nodup_prints
  · refine List.Nodup.map (fun i j hrepr => ?_) plan.pins.digitalIn.nodup_toList
    have hpin : (Pin.mk .digital i).name = (Pin.mk .digital j).name := by
      rw [Pin.name, Pin.name, hrepr]
    exact (Pin.mk.inj (Pin.name_inj.1 hpin)).2
  · intro argument
    have hdigital (index : Nat) : index ∈ plan.pins.digitalIn.toList ↔
        "din" ++ index.repr ∈ query.names := by
      change _ ↔ (Pin.mk .digital index).name ∈ query.names
      rw [← h.mem_reads]
      simp [reads]
    rw [parts, List.mem_map]
    constructor
    · rintro ⟨index, hindex, rfl⟩
      exact ⟨index, rfl, (hdigital index).1 hindex⟩
    · rintro ⟨index, rfl, hindex⟩
      exact ⟨index, (hdigital index).2 hindex, rfl⟩

/-- The dialect of the programs of a target. -/
def Dialect.ofTarget? : String → Option Dialect
  | "arduino" => some sketch
  | "board" => some sketch
  | "mruby" => some script
  | _ => none

/-- Targets with a dialect have the renderer of this dialect. -/
theorem Dialect.get?_of_ofTarget? {target : String} {dialect : Dialect}
    (h : ofTarget? target = some dialect) : IsLine target ∧ IsSilent target.toList ∧
      ((dialect = sketch ∧ ∃ name, Registry.builtin.get? target = some (Sketch.renderer name)) ∨
        (dialect = script ∧ Registry.builtin.get? target = some Script.renderer)) := by
  unfold ofTarget? at h
  split at h
  next => exact ⟨by decide, by decide, .inl ⟨(Option.some.inj h).symm, "arduino", rfl⟩⟩
  next => exact ⟨by decide, by decide, .inl ⟨(Option.some.inj h).symm, "board", rfl⟩⟩
  next => exact ⟨by decide, by decide, .inr ⟨(Option.some.inj h).symm, rfl⟩⟩
  next => cases h

/-- The renderer of a target that has a dialect writes programs in this dialect. -/
theorem Dialect.hasParts_render {plan : Plan} {dialect : Dialect}
    (hdialect : ofTarget? plan.target = some dialect) {renderer : Renderer}
    (hrenderer : Registry.builtin.get? plan.target = some renderer)
    (hcondition : IsLine plan.condition.text) :
    ∃ vars, dialect.HasParts (renderer.render plan) (plan.parts vars) ∧
      vars.flatten = plan.prints.map Pin.name := by
  obtain ⟨htarget, hsilent, ⟨rfl, name, hget⟩ | ⟨rfl, hget⟩⟩ := get?_of_ofTarget? hdialect
  · have hrender : renderer.render plan = unlines (Sketch.lines plan) := by
      rw [Option.some.inj (hrenderer.symm.trans hget)]
      rfl
    rw [hrender]
    exact hasParts_sketch hcondition htarget hsilent
  · have hrender : renderer.render plan = unlines (Script.lines plan) := by
      rw [Option.some.inj (hrenderer.symm.trans hget)]
      rfl
    rw [hrender]
    exact ⟨_, hasParts_script hcondition htarget hsilent, by simp⟩

/-- **Programs are well scoped.** The program of a source for a sketch or a script fits the query. -/
theorem wellScoped_of_compile {source : String} {compiled : Compiled} {dialect : Dialect}
    (h : compile .builtin source = .ok compiled)
    (hdialect : Dialect.ofTarget? compiled.query.target.text = some dialect) :
    ∃ parts : ProgramParts, dialect.HasParts compiled.content parts ∧
      parts.WellScoped compiled.query := by
  obtain ⟨hparse, hplan, renderer, hrenderer, hcontent⟩ := compile_eq_ok_iff.1 h
  have hdescribes := Plan.describes_of_ofQuery hplan
  have hfinite : ∀ e ∈ compiled.query.condition, e.HasFiniteNumbers := fun e he =>
    ((wellShaped_of_parse hparse).condition e he).hasFiniteNumbers
  rw [← hdescribes.target] at hdialect
  obtain ⟨vars, hparts, hvars⟩ :=
    Dialect.hasParts_render hdialect hrenderer hdescribes.isLine_condition
  exact ⟨compiled.plan.parts vars, hcontent ▸ hparts, hdescribes.wellScoped hfinite hvars⟩

theorem wellScoped_of_compile_mruby : ∃ (compiled : Compiled) (parts : ProgramParts),
    compile .builtin
        "SELECT din1, ain2, din1 FROM mruby WHERE ain2 > 3 AND NOT din4 = -0.5" = .ok compiled ∧
      Dialect.script.HasParts compiled.content parts ∧ parts.WellScoped compiled.query := by
  have htarget : (compile .builtin
      "SELECT din1, ain2, din1 FROM mruby WHERE ain2 > 3 AND NOT din4 = -0.5").toOption.map
        (fun compiled => compiled.query.target.text) = some "mruby" := by
    decide +kernel
  generalize hcompile : compile .builtin
    "SELECT din1, ain2, din1 FROM mruby WHERE ain2 > 3 AND NOT din4 = -0.5" = result at htarget ⊢
  cases result with
  | error e => cases htarget
  | ok compiled =>
    have htext : compiled.query.target.text = "mruby" := Option.some.inj htarget
    have hdialect : Dialect.ofTarget? compiled.query.target.text = some .script := by
      rw [htext]
      rfl
    obtain ⟨parts, hparts, hscoped⟩ := wellScoped_of_compile hcompile hdialect
    exact ⟨compiled, parts, rfl, hparts, hscoped⟩

end PinQuery
