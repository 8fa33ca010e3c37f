import PinQuery.Compile
import PinQuery.Proofs.Output.Session
import PinQuery.Proofs.Plan.Offence

/-!
# Compiling with a registry

A registry is built by registering renderers. Compiling a source looks the target up twice, among
the names for the analysis and among the renderers for the program, and both find the same.

* `Registry.BuiltBy`: a registry with the history of its registrations.
* `Registry.BuiltBy.get?_eq_some_iff`: a name leads to the renderer that was registered last under
  it.
* `compile_eq_ok_iff`, `compile_eq_error_iff` and `compile_ne_output`: how compiling can end. It
  never ends for want of a renderer.
* `registry_agrees_with_compile`: the names of a registry, compiling with it, and generating from
  its plans.
-/

namespace PinQuery

/-! ## Histories of registrations -/

namespace Registry

/-- The renderers of the built-in registry, in the order of their registration. -/
def builtinRenderers : List Renderer :=
  [Sketch.renderer "arduino", Sketch.renderer "board", Script.renderer, Listing.renderer]

/-- A registry and the renderers that were registered in it, the latest at the end. It was empty at
first, or it held the built-in renderers. -/
inductive BuiltBy : Registry → List Renderer → Prop
  | empty : BuiltBy .empty []
  | builtin : BuiltBy .builtin builtinRenderers
  | register {registry : Registry} {history : List Renderer} (h : BuiltBy registry history)
      (renderer : Renderer) : BuiltBy (registry.register renderer) (history ++ [renderer])

/-- The renderer that was registered last under a name. -/
def LastRegistered (history : List Renderer) (name : String) (renderer : Renderer) : Prop :=
  ∃ before after, history = before ++ renderer :: after ∧ renderer.name = name ∧
    ∀ later ∈ after, later.name ≠ name

theorem find?_reverse_eq_some_iff {history : List Renderer} {name : String} {renderer : Renderer} :
    history.reverse.find? (·.name == name) = some renderer ↔
      LastRegistered history name renderer := by
  rw [List.find?_eq_some_iff_append]
  constructor
  · rintro ⟨hname, after, before, hreverse, hafter⟩
    refine ⟨before.reverse, after.reverse, ?_, by simpa using hname, by simpa using hafter⟩
    rw [← List.reverse_reverse history, hreverse]
    simp
  · rintro ⟨before, after, rfl, hname, hafter⟩
    exact ⟨by simpa using hname, after.reverse, before.reverse, by simp, by simpa using hafter⟩

theorem get?_foldl_register (history : List Renderer) (registry : Registry) (name : String) :
    (history.foldl register registry).get? name =
      (history.reverse.find? (·.name == name)).or (registry.get? name) := by
  induction history generalizing registry with
  | nil => simp
  | cons renderer history ih =>
    rw [List.foldl_cons, ih, get?_register, List.reverse_cons, List.find?_append, Option.or_assoc]
    congr 1
    by_cases hname : renderer.name = name <;> simp [hname]

/-- The names of a registry are those that lead to a renderer. -/
theorem mem_names_iff {registry : Registry} {name : String} :
    name ∈ registry.names ↔ ∃ renderer, registry.get? name = some renderer := by
  have hmem : name ∈ registry.names ↔ ∃ renderer ∈ registry.renderers, renderer.name = name :=
    List.mem_map
  rw [hmem, ← Option.isSome_iff_exists, get?, List.find?_isSome]
  simp

namespace BuiltBy

variable {registry : Registry} {history : List Renderer} (h : registry.BuiltBy history)
include h

theorem eq_foldl : registry = history.foldl Registry.register .empty := by
  induction h with
  | empty => rfl
  | builtin => rfl
  | register _ renderer ih => rw [List.foldl_append, ← ih]; rfl

/-- **A name leads to the renderer that was registered last under it.** -/
theorem get?_eq_some_iff {name : String} {renderer : Renderer} :
    registry.get? name = some renderer ↔ LastRegistered history name renderer := by
  rw [h.eq_foldl, get?_foldl_register, ← find?_reverse_eq_some_iff]
  have hempty : Registry.empty.get? name = none := rfl
  rw [hempty, Option.or_none]

theorem mem_names_iff {name : String} :
    name ∈ registry.names ↔ ∃ renderer ∈ history, renderer.name = name := by
  rw [Registry.mem_names_iff, h.eq_foldl]
  have hempty : Registry.empty.get? name = none := rfl
  simp only [get?_foldl_register, hempty, Option.or_none, ← Option.isSome_iff_exists,
    List.find?_isSome, List.mem_reverse, beq_iff_eq]

theorem names_eq_ofList : registry.names = .ofList (history.map Renderer.name) := by
  refine OrderedSet.ext_mem fun name => ?_
  rw [h.mem_names_iff, OrderedSet.mem_ofList, List.mem_map]

end BuiltBy

/-- The names of a registry are in the order of their bytes. -/
theorem pairwise_bytes_names (registry : Registry) :
    registry.names.toList.Pairwise fun name name' => Text.bytes name < Text.bytes name' :=
  registry.names.increasing.imp Text.lt_iff_bytes_lt.1

/-- Sorting the names of a registry and dropping repetitions changes nothing. -/
theorem sortedByBytes_names (registry : Registry) :
    Text.sortedByBytes registry.names.toList = registry.names.toList := by
  have hset : OrderedSet.ofList registry.names.toList = registry.names :=
    OrderedSet.ext_mem fun _ => OrderedSet.mem_ofList
  rw [← Text.toList_ofList_eq_sortedByBytes, hset]

end Registry

/-! ## How compiling ends -/

theorem mapError_eq_ok_iff {ε ε' α : Type} {x : Except ε α} {f : ε → ε'} {a : α} :
    x.mapError f = .ok a ↔ x = .ok a := by
  cases x <;> simp [Except.mapError]

theorem planSource_eq_ok_iff {known : OrderedSet String} {source : String} {query : Query}
    {plan : Plan} :
    planSource known source = .ok (query, plan) ↔
      Query.parse source = .ok query ∧ Plan.ofQuery known query = .ok plan := by
  constructor
  · intro h
    obtain ⟨query', hparse, h⟩ := bind_eq_ok_iff.1 h
    obtain ⟨plan', hplan, h⟩ := bind_eq_ok_iff.1 h
    cases h
    exact ⟨mapError_eq_ok_iff.1 hparse, mapError_eq_ok_iff.1 hplan⟩
  · rintro ⟨hparse, hplan⟩
    simp [planSource, hparse, hplan, Except.mapError, bind, Except.bind, pure, Except.pure]

/-- A source that cannot be planned is not read, or its query has no plan. -/
theorem planSource_eq_error_iff {known : OrderedSet String} {source : String}
    {error : CompileError} :
    planSource known source = .error error ↔
      (∃ cause, Query.parse source = .error cause ∧ error = .reading cause) ∨
        ∃ query cause, Query.parse source = .ok query ∧ Plan.ofQuery known query = .error cause ∧
          error = .planning cause := by
  unfold planSource
  cases Query.parse source with
  | error cause => simp [Except.mapError, bind, Except.bind, eq_comm (a := error)]
  | ok query =>
    cases hplan : Plan.ofQuery known query with
    | error cause => simp [hplan, Except.mapError, bind, Except.bind, eq_comm (a := error)]
    | ok plan => simp [hplan, Except.mapError, bind, Except.bind, pure, Except.pure]

theorem compile_of_planSource_error {registry : Registry} {source : String} {error : CompileError}
    (h : planSource registry.names source = .error error) :
    compile registry source = .error error := by
  rw [compile, h]
  rfl

/-- The target of a plan for the names of a registry has a renderer there. -/
theorem Registry.exists_get?_of_ofQuery {registry : Registry} {query : Query} {plan : Plan}
    (h : Plan.ofQuery registry.names query = .ok plan) :
    ∃ renderer, registry.get? plan.target = some renderer := by
  have htarget := (Plan.describes_of_ofQuery h).target
  simp only [Plan.ofQuery, bind_eq_ok_iff] at h
  obtain ⟨_, _, _, hcheck, _⟩ := h
  rw [htarget]
  exact mem_names_iff.1 (TargetName.check_eq_ok_iff.1 hcheck)

/-- A source that can be planned is compiled by the renderer of its target. -/
theorem compile_of_planSource {registry : Registry} {source : String} {query : Query} {plan : Plan}
    (h : planSource registry.names source = .ok (query, plan)) :
    ∃ renderer, registry.get? plan.target = some renderer ∧
      compile registry source = .ok ⟨query, plan, renderer.render plan⟩ := by
  obtain ⟨renderer, hget⟩ := Registry.exists_get?_of_ofQuery (planSource_eq_ok_iff.1 h).2
  refine ⟨renderer, hget, ?_⟩
  simp only [compile, h, bind, Except.bind, hget]
  rfl

/-- Compiling is reading, planning and rendering. -/
theorem compile_eq_ok_iff {registry : Registry} {source : String} {compiled : Compiled} :
    compile registry source = .ok compiled ↔ Query.parse source = .ok compiled.query ∧
      Plan.ofQuery registry.names compiled.query = .ok compiled.plan ∧
      ∃ renderer, registry.get? compiled.plan.target = some renderer ∧
        compiled.content = renderer.render compiled.plan := by
  constructor
  · intro h
    cases hplan : planSource registry.names source with
    | error error => rw [compile_of_planSource_error hplan] at h; cases h
    | ok planned =>
      obtain ⟨renderer, hget, hcompile⟩ := compile_of_planSource hplan
      obtain ⟨hparse, hquery⟩ := planSource_eq_ok_iff.1 hplan
      rw [hcompile] at h
      cases h
      exact ⟨hparse, hquery, renderer, hget, rfl⟩
  · rintro ⟨hparse, hplan, renderer, hget, hcontent⟩
    obtain ⟨renderer', hget', hcompile⟩ :=
      compile_of_planSource (planSource_eq_ok_iff.2 ⟨hparse, hplan⟩)
    rw [hget] at hget'
    cases hget'
    rw [hcompile, ← hcontent]

/-- Compiling fails where planning fails, and with the same error. -/
theorem compile_eq_error_iff {registry : Registry} {source : String} {error : CompileError} :
    compile registry source = .error error ↔
      planSource registry.names source = .error error := by
  refine ⟨fun h => ?_, compile_of_planSource_error⟩
  cases hplan : planSource registry.names source with
  | error error' =>
    rw [compile_of_planSource_error hplan] at h
    cases h
    rfl
  | ok planned =>
    obtain ⟨renderer, -, hcompile⟩ := compile_of_planSource hplan
    rw [hcompile] at h
    cases h

/-- **Compiling never fails for want of a renderer.** -/
theorem compile_ne_output (registry : Registry) (source : String) (error : OutputError) :
    compile registry source ≠ .error (.output error) := by
  intro h
  rcases planSource_eq_error_iff.1 (compile_eq_error_iff.1 h) with
    ⟨cause, -, hcause⟩ | ⟨query, cause, -, -, hcause⟩ <;> cases hcause

section

variable {name : String} {span : Span} {known : List String}

theorem Name.unknownTarget_not_mem_offences (n : Name) :
    .unknownTarget name span known ∉ n.offences := by
  unfold offences
  split <;> simp

theorem Expr.unknownTarget_not_mem_offences (e : Expr) :
    .unknownTarget name span known ∉ e.offences := by
  have hoperand (e : Expr) : .unknownTarget name span known ∉ e.operandOffences := by
    cases e with
    | column name => exact name.unknownTarget_not_mem_offences
    | literal | comparison | logical | negation => simp [operandOffences]
  induction e with
  | column name => simp [offences]
  | literal number => simp [offences]
  | comparison op left right span _ _ =>
    rw [offences]
    split
    next => simp [hoperand]
    next => simp
  | logical op left right span ihleft ihright => simp [offences, ihleft, ihright]
  | negation inner span ih =>
    rw [offences]
    split
    next => exact ih
    next => simp

/-- Only the check of the target reports an unknown one. -/
theorem TargetName.mem_offences_of_unknownTarget {vocabulary : List String} {query : Query}
    (h : .unknownTarget name span known ∈ query.offences vocabulary) :
    .unknownTarget name span known ∈ query.target.offences vocabulary := by
  have hcondition : .unknownTarget name span known ∉ query.condition.elim [] Expr.offences := by
    cases query.condition with
    | none => simp
    | some e => exact e.unknownTarget_not_mem_offences
  simpa only [Query.offences, List.mem_append, List.mem_flatMap,
    Name.unknownTarget_not_mem_offences, and_false, exists_false, false_or, hcondition,
    or_false] using h

/-- Only a target outside the vocabulary is unknown. -/
theorem TargetName.not_mem_of_unknownTarget {vocabulary : List String} {query : Query}
    (h : Plan.ofQuery (.ofList vocabulary) query = .error (.unknownTarget name span known)) :
    query.target.text = name ∧ name ∉ vocabulary := by
  have hmem := mem_offences_of_unknownTarget
    (List.mem_of_head? ((reportsFirst_ofQuery vocabulary query _).1 h))
  unfold offences at hmem
  split at hmem
  next => simp at hmem
  next hunknown =>
    cases List.mem_singleton.1 hmem
    exact ⟨rfl, hunknown⟩

/-- With an unknown target the names of the registry are reported, in their order. -/
theorem TargetName.known_eq_of_compile {registry : Registry} {source : String}
    (h : compile registry source = .error (.planning (.unknownTarget name span known))) :
    known = registry.names.toList := by
  rcases planSource_eq_error_iff.1 (compile_eq_error_iff.1 h) with
    ⟨cause, -, hcause⟩ | ⟨query, cause, -, hplan, hcause⟩
  · cases hcause
  · cases hcause
    have hmem := mem_offences_of_unknownTarget (mem_offences_of_ofQuery hplan)
    unfold offences at hmem
    split at hmem
    next => simp at hmem
    next =>
      cases List.mem_singleton.1 hmem
      exact registry.sortedByBytes_names

end

/-! ## Generating -/

/-- An output generates from the plan of a compiled source what compiling gave. -/
theorem Output.generate_of_compile {registry : Registry} {source : String} {compiled : Compiled}
    (h : compile registry source = .ok compiled) :
    ((Output.new registry).generate compiled.plan).1 = .ok compiled.content ∧
      ((Output.new registry).generate compiled.plan).2.content = some compiled.content := by
  obtain ⟨-, -, renderer, hget, hcontent⟩ := compile_eq_ok_iff.1 h
  have hgenerate : ((Output.new registry).generate compiled.plan).1 = .ok compiled.content :=
    generate_eq_ok_iff.2 ⟨renderer, hget, hcontent.symm⟩
  exact ⟨hgenerate, content_generate_iff.2 hgenerate⟩

/-- **A registry, the analysis, compiling and generating agree**, whatever was registered before.
The names are in the order of their bytes, and they are those that were registered. Compiling never
fails for want of a renderer: a target is unknown only if it was never registered, and the sources
that can be compiled are those whose query is valid for the names that were. The program is what the
renderer registered last under the target makes of the plan, and generating from the plan gives and
keeps the same. -/
theorem registry_agrees_with_compile {registry : Registry} {history : List Renderer}
    (h : registry.BuiltBy history) :
    (registry.names.toList.Pairwise fun name name' => Text.bytes name < Text.bytes name') ∧
    Text.sortedByBytes registry.names.toList = registry.names.toList ∧
    (∀ name, name ∈ registry.names.toList ↔ ∃ renderer ∈ history, renderer.name = name) ∧
    ∀ source,
      (∀ error, compile registry source ≠ .error (.output error)) ∧
      (∀ name span known,
        compile registry source = .error (.planning (.unknownTarget name span known)) →
          ∃ query, Query.parse source = .ok query ∧ query.target.text = name ∧
            ∀ renderer ∈ history, renderer.name ≠ name) ∧
      ((∃ compiled, compile registry source = .ok compiled) ↔
        ∃ query, Query.parse source = .ok query ∧
          query.IsValid (history.map Renderer.name)) ∧
      ∀ compiled, compile registry source = .ok compiled →
        Query.parse source = .ok compiled.query ∧
        compiled.plan.target = compiled.query.target.text ∧
        (∃ renderer, Registry.LastRegistered history compiled.query.target.text renderer ∧
          compiled.content = renderer.render compiled.plan) ∧
        ((Output.new registry).generate compiled.plan).1 = .ok compiled.content ∧
        ((Output.new registry).generate compiled.plan).2.content = some compiled.content := by
  have hnames := h.names_eq_ofList
  refine ⟨registry.pairwise_bytes_names, registry.sortedByBytes_names, fun name => h.mem_names_iff,
    fun source => ⟨compile_ne_output registry source, fun name span known herror => ?_, ?_,
      fun compiled hcompile => ?_⟩⟩
  · rcases planSource_eq_error_iff.1 (compile_eq_error_iff.1 herror) with
      ⟨cause, -, hcause⟩ | ⟨query, cause, hparse, hplan, hcause⟩
    · cases hcause
    · cases hcause
      rw [hnames] at hplan
      obtain ⟨htarget, hunknown⟩ := TargetName.not_mem_of_unknownTarget hplan
      exact ⟨query, hparse, htarget, by simpa using hunknown⟩
  · constructor
    · rintro ⟨compiled, hcompile⟩
      obtain ⟨hparse, hplan, -⟩ := compile_eq_ok_iff.1 hcompile
      rw [hnames] at hplan
      exact ⟨compiled.query, hparse, Query.isValid_of_ofQuery hplan⟩
    · rintro ⟨query, hparse, hvalid⟩
      obtain ⟨plan, hplan⟩ := (Query.passes_iff.2 ⟨hvalid, rfl⟩).exists_ofQuery
      rw [← hnames] at hplan
      obtain ⟨renderer, -, hcompile⟩ :=
        compile_of_planSource (planSource_eq_ok_iff.2 ⟨hparse, hplan⟩)
      exact ⟨_, hcompile⟩
  · obtain ⟨hparse, hplan, renderer, hget, hcontent⟩ := compile_eq_ok_iff.1 hcompile
    have htarget := (Plan.describes_of_ofQuery hplan).target
    rw [htarget, h.get?_eq_some_iff] at hget
    exact ⟨hparse, htarget, ⟨renderer, hget, hcontent⟩, Output.generate_of_compile hcompile⟩

/-- A renderer that shows the condition and nothing else. -/
def conditionRenderer : Renderer := ⟨"board", "txt", fun plan => plan.condition.text⟩

theorem registry_agrees_with_compile_conditionRenderer : ∃ compiled : Compiled,
    compile (Registry.builtin.register conditionRenderer)
        "SELECT din1 FROM board WHERE ain2 > 3" = .ok compiled ∧
      compiled.content = "ain2 > 3" ∧
      ((Output.new (Registry.builtin.register conditionRenderer)).generate compiled.plan).1 =
        .ok "ain2 > 3" := by
  have hcontent : (compile (Registry.builtin.register conditionRenderer)
      "SELECT din1 FROM board WHERE ain2 > 3").toOption.map Compiled.content =
        some "ain2 > 3" := by
    decide +kernel
  obtain ⟨-, -, -, hagrees⟩ :=
    registry_agrees_with_compile (Registry.BuiltBy.builtin.register conditionRenderer)
  obtain ⟨-, -, -, hagrees⟩ := hagrees "SELECT din1 FROM board WHERE ain2 > 3"
  generalize compile (Registry.builtin.register conditionRenderer)
    "SELECT din1 FROM board WHERE ain2 > 3" = result at hcontent hagrees ⊢
  cases result with
  | error error => cases hcontent
  | ok compiled =>
    have htext : compiled.content = "ain2 > 3" := Option.some.inj hcontent
    obtain ⟨-, -, -, hgenerate, -⟩ := hagrees compiled rfl
    exact ⟨compiled, rfl, htext, htext ▸ hgenerate⟩

end PinQuery
