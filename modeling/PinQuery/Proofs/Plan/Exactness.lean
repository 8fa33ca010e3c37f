import PinQuery.Proofs.Plan.Analysis

/-!
# The analysis is exact

Which queries have a plan, and what the plan says.

* `Query.IsValid`: the queries that can be planned, without a word about how they are checked.
* `Plan.Answers`: what the plan of a query holds, entry by entry.
* `Query.Passes`: the checks of a query in their order, with the pins they collect. They pass for the
  valid queries (`Query.passes_iff`).
* `Query.Passes.exists_targetText` and `Query.Passes.exists_partition`: after the checks nothing can
  fail any more, neither the text of the condition nor the sorting of the pins.
* `analysis_exact`: the valid queries have a plan and no others do, and the plan answers the query.
-/

namespace PinQuery

/-- The queries that can be planned for the targets of a vocabulary: every column is a pin of the
board, the target is in the vocabulary, and the condition is supported. -/
structure Query.IsValid (vocabulary : List String) (query : Query) : Prop where
  columns : ∀ column ∈ query.columns, IsPinName column.text
  target : query.target.text ∈ vocabulary
  condition : ∀ e ∈ query.condition, e.IsSupported

/-- What the plan of a query holds: the names in the columns are printed, these and the names in the
condition are read, and the sets of indices are those of the names by their kinds. -/
structure Plan.Answers (plan : Plan) (query : Query) : Prop where
  mem_outputs : ∀ name, name ∈ plan.usage.outputs ↔ ∃ column ∈ query.columns, column.text = name
  mem_referenced : ∀ name, name ∈ plan.usage.referenced ↔
    name ∈ plan.usage.outputs ∨ ∃ e ∈ query.condition, name ∈ e.names
  mem_digitalIn : ∀ index, index ∈ plan.pins.digitalIn ↔
    "din" ++ index.repr ∈ plan.usage.referenced
  mem_analogIn : ∀ index, index ∈ plan.pins.analogIn ↔ "ain" ++ index.repr ∈ plan.usage.referenced
  mem_digitalOut : ∀ index, index ∈ plan.pins.digitalOut ↔
    "din" ++ index.repr ∈ plan.usage.outputs
  mem_analogOut : ∀ index, index ∈ plan.pins.analogOut ↔ "ain" ++ index.repr ∈ plan.usage.outputs
  digitalOut_subset : ∀ index ∈ plan.pins.digitalOut, index ∈ plan.pins.digitalIn
  analogOut_subset : ∀ index ∈ plan.pins.analogOut, index ∈ plan.pins.analogIn
  always_iff : plan.condition = .always ↔ query.condition = none
  test : ∀ e ∈ query.condition, ∃ text, e.targetText = .ok text ∧ plan.condition = .test text
  sleep : plan.sleep = (query.sleep.map fun literal => .ofSeconds literal.value).getD .none
  baud : plan.baud = (query.speed.map Literal.value).getD defaultBaud
  target : plan.target = query.target.text

/-! ## The checks -/

/-- The checks of a query pass and collect these pins: the columns, the target, then the condition. -/
def Query.Passes (known : OrderedSet String) (query : Query) (usage : PinUsage) : Prop :=
  ∃ columnUsage, checkColumns query.columns .empty = .ok columnUsage ∧
    query.target.check known = .ok () ∧
    match query.condition with
    | none => usage = columnUsage
    | some e => e.checkCondition columnUsage = .ok usage

theorem TargetName.check_eq_ok_iff {target : TargetName} {known : OrderedSet String} {u : Unit} :
    target.check known = .ok u ↔ target.text ∈ known := by
  unfold check
  split
  next h => simp [h]
  next h => simp [h]

/-- **The checks pass for the valid queries and collect their names.** -/
theorem Query.passes_iff {vocabulary : List String} {query : Query} {usage : PinUsage} :
    query.Passes (.ofList vocabulary) usage ↔ query.IsValid vocabulary ∧ usage = query.usage := by
  have hvalid : query.IsValid vocabulary ↔ (∀ column ∈ query.columns, IsPinName column.text) ∧
      query.target.text ∈ vocabulary ∧ ∀ e ∈ query.condition, e.IsSupported :=
    ⟨fun ⟨h₁, h₂, h₃⟩ => ⟨h₁, h₂, h₃⟩, fun ⟨h₁, h₂, h₃⟩ => ⟨h₁, h₂, h₃⟩⟩
  simp only [Passes, checkColumns_eq_ok_iff, TargetName.check_eq_ok_iff, OrderedSet.mem_ofList,
    hvalid, Query.usage, conditionNames, columnNames]
  cases query.condition with
  | none =>
    simp only [Option.not_mem_none, false_implies, implies_true, List.foldl_nil]
    grind
  | some e =>
    simp only [Expr.checkCondition_eq_ok_iff, Option.mem_some_iff, forall_eq']
    grind

/-! ## Nothing fails after the checks -/

/-- A supported condition has a text in the target language. -/
theorem Expr.IsSupported.exists_targetText {e : Expr} (h : e.IsSupported) :
    ∃ text, e.targetText = .ok text := by
  have hoperand {e : Expr} (h : e.IsSupportedOperand) : ∃ text, e.targetText = .ok text := by
    cases h <;> exact ⟨_, rfl⟩
  induction h with
  | comparison hleft hright =>
    obtain ⟨leftText, hleft⟩ := hoperand hleft
    obtain ⟨rightText, hright⟩ := hoperand hright
    simp [targetText, hleft, hright, bind, Except.bind, pure, Except.pure]
  | logical _ _ ihleft ihright =>
    obtain ⟨leftText, hleft⟩ := ihleft
    obtain ⟨rightText, hright⟩ := ihright
    simp [targetText, hleft, hright, bind, Except.bind, pure, Except.pure]
  | negation hbinary _ ih =>
    obtain ⟨text, htext⟩ := ih
    simp [targetText, hbinary, htext, bind, Except.bind, pure, Except.pure]

/-- The names of pins can be taken apart. -/
theorem Pin.exists_mapM_classify {names : List String} (h : ∀ name ∈ names, IsPinName name) :
    ∃ pins, names.mapM classify = .ok pins := by
  induction names with
  | nil => exact ⟨[], rfl⟩
  | cons name names ih =>
    obtain ⟨pin, hpin⟩ := isPinName_iff.1 (h name (by simp))
    obtain ⟨pins, hpins⟩ := ih fun name hname => h name (by simp [hname])
    refine ⟨pin :: pins, ?_⟩
    rw [List.mapM_cons, classify_eq_ok_iff.2 hpin, hpins]
    rfl

theorem PinUsage.exists_partition {usage : PinUsage}
    (hreferenced : ∀ name ∈ usage.referenced, IsPinName name)
    (houtputs : ∀ name ∈ usage.outputs, IsPinName name) : ∃ pins, usage.partition = .ok pins := by
  obtain ⟨inputs, hinputs⟩ := Pin.exists_mapM_classify hreferenced
  obtain ⟨outputs, houtputs⟩ := Pin.exists_mapM_classify houtputs
  rw [partition, hinputs, houtputs]
  exact ⟨_, rfl⟩

namespace Query.Passes

variable {vocabulary : List String} {query : Query} {usage : PinUsage}
  (h : query.Passes (.ofList vocabulary) usage)
include h

theorem exists_targetText : ∀ e ∈ query.condition, ∃ text, e.targetText = .ok text :=
  fun e he => ((passes_iff.1 h).1.condition e he).exists_targetText

theorem exists_partition : ∃ pins, usage.partition = .ok pins := by
  obtain ⟨hvalid, rfl⟩ := passes_iff.1 h
  have hcolumns : ∀ name ∈ query.columnNames, IsPinName name := by
    simpa [columnNames] using hvalid.columns
  have hcondition : ∀ name ∈ query.conditionNames, IsPinName name := by
    unfold conditionNames
    split
    next => simp
    next e he => exact (hvalid.condition e he).isPinName_of_mem_names
  refine PinUsage.exists_partition (fun name hname => ?_) fun name hname => ?_
  · rcases mem_usage.1.1 hname with hname | hname
    · exact hcolumns name hname
    · exact hcondition name hname
  · exact hcolumns name (mem_usage.2.1 hname)

/-- A query whose checks pass has a plan. -/
theorem exists_ofQuery : ∃ plan, Plan.ofQuery (.ofList vocabulary) query = .ok plan := by
  obtain ⟨pins, hpins⟩ := h.exists_partition
  have htext := h.exists_targetText
  obtain ⟨columnUsage, hcolumns, htarget, hcondition⟩ := h
  simp only [Plan.ofQuery, hcolumns, htarget, bind, Except.bind]
  cases hquery : query.condition with
  | none =>
    rw [hquery] at hcondition
    subst hcondition
    simp [checkClause, hpins, pure, Except.pure]
  | some e =>
    rw [hquery] at hcondition
    obtain ⟨text, htext⟩ := htext e hquery
    dsimp only at hcondition
    simp [checkClause, hcondition, htext, hpins, bind, Except.bind, pure, Except.pure]

end Query.Passes

/-! ## Plans of queries -/

theorem Query.isValid_of_ofQuery {vocabulary : List String} {query : Query} {plan : Plan}
    (h : Plan.ofQuery (.ofList vocabulary) query = .ok plan) : query.IsValid vocabulary := by
  have hdescribes := Plan.describes_of_ofQuery h
  simp only [Plan.ofQuery, bind_eq_ok_iff] at h
  obtain ⟨_, _, _, htarget, _⟩ := h
  refine ⟨?_, ?_, hdescribes.condition⟩
  · simpa [columnNames] using hdescribes.columns
  · simpa using TargetName.check_eq_ok_iff.1 htarget

theorem Plan.answers_of_ofQuery {known : OrderedSet String} {query : Query} {plan : Plan}
    (h : Plan.ofQuery known query = .ok plan) : plan.Answers query := by
  have hdescribes := describes_of_ofQuery h
  have houtputs (name : String) : name ∈ plan.usage.outputs ↔ name ∈ query.columnNames := by
    rw [hdescribes.usage, Query.mem_usage.2]
  have hreferenced (name : String) : name ∈ plan.usage.referenced ↔
      name ∈ plan.usage.outputs ∨ name ∈ query.conditionNames := by
    rw [houtputs, hdescribes.usage, Query.mem_usage.1]
  have hpins := PinUsage.mem_pins (hdescribes.usage ▸ hdescribes.pins)
  have hsettings : plan.sleep = (query.sleep.map fun literal => .ofSeconds literal.value).getD .none
      ∧ plan.baud = (query.speed.map Literal.value).getD defaultBaud := by
    simp only [ofQuery, bind_eq_ok_iff] at h
    obtain ⟨_, _, _, _, _, _, _, _, hplan⟩ := h
    cases hplan
    cases query.sleep <;> cases query.speed <;> exact ⟨rfl, rfl⟩
  refine ⟨by simpa [Query.columnNames] using houtputs, fun name => ?_, fun index => (hpins index).1,
    fun index => (hpins index).2.1, fun index => (hpins index).2.2.1,
    fun index => (hpins index).2.2.2, fun index hindex => ?_, fun index hindex => ?_, ?_,
    hdescribes.test, hsettings.1, hsettings.2, hdescribes.target⟩
  · rw [hreferenced, Query.conditionNames]
    cases query.condition <;> simp
  · rw [(hpins index).1, hreferenced]
    exact .inl ((hpins index).2.2.1.1 hindex)
  · rw [(hpins index).2.1, hreferenced]
    exact .inl ((hpins index).2.2.2.1 hindex)
  · refine ⟨fun halways => ?_, hdescribes.always⟩
    cases hcondition : query.condition with
    | none => rfl
    | some e =>
      obtain ⟨text, -, htest⟩ := hdescribes.test e hcondition
      rw [halways] at htest
      cases htest

/-- **The analysis accepts exactly the valid queries, and the plan of a query answers it.** Once the
checks have passed, the condition has a text in the target language and the pins can be sorted. -/
theorem analysis_exact (vocabulary : List String) (query : Query) :
    ((∃ plan, Plan.ofQuery (.ofList vocabulary) query = .ok plan) ↔ query.IsValid vocabulary) ∧
      (∀ plan, Plan.ofQuery (.ofList vocabulary) query = .ok plan → plan.Answers query) ∧
      ∀ usage, query.Passes (.ofList vocabulary) usage →
        (∀ e ∈ query.condition, ∃ text, e.targetText = .ok text) ∧
          ∃ pins, usage.partition = .ok pins := by
  refine ⟨⟨fun ⟨plan, hplan⟩ => Query.isValid_of_ofQuery hplan, fun hvalid => ?_⟩,
    fun plan hplan => Plan.answers_of_ofQuery hplan,
    fun usage hpasses => ⟨hpasses.exists_targetText, hpasses.exists_partition⟩⟩
  have hpasses : query.Passes (.ofList vocabulary) query.usage := Query.passes_iff.2 ⟨hvalid, rfl⟩
  exact hpasses.exists_ofQuery

/-- The query `SELECT ain2 FROM board WHERE NOT (ain2 > 3 OR din4 = 1)`, without places. -/
def negatedDisjunctionQuery : Query where
  columns := [⟨"ain2", false, .empty 0⟩]
  target := ⟨"board", .empty 0⟩
  condition := some (.negation (.logical .or
    (.comparison .greater (.column ⟨"ain2", false, .empty 0⟩) (.literal ⟨.int 3, .empty 0⟩)
      (.empty 0))
    (.comparison .equal (.column ⟨"din4", false, .empty 0⟩) (.literal ⟨.int 1, .empty 0⟩)
      (.empty 0)) (.empty 0)) (.empty 0))
  sleep := none
  speed := none
  span := .empty 0

theorem analysis_negatedDisjunctionQuery :
    negatedDisjunctionQuery.IsValid ["dev", "board", "dev"] ∧
      ∃ plan, Plan.ofQuery (.ofList ["dev", "board", "dev"]) negatedDisjunctionQuery = .ok plan ∧
        plan.Answers negatedDisjunctionQuery := by
  have hvalid : negatedDisjunctionQuery.IsValid ["dev", "board", "dev"] := by
    refine ⟨by decide, by decide, fun e he => ?_⟩
    cases he
    exact .negation rfl (.logical (.comparison (.column (by decide)) (.literal _))
      (.comparison (.column (by decide)) (.literal _)))
  obtain ⟨hiff, hanswers, -⟩ := analysis_exact ["dev", "board", "dev"] negatedDisjunctionQuery
  obtain ⟨plan, hplan⟩ := hiff.2 hvalid
  exact ⟨hvalid, plan, hplan, hanswers plan hplan⟩

end PinQuery
