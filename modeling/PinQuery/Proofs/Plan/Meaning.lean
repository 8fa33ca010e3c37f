import PinQuery.Proofs.Compile
import PinQuery.Proofs.Query.Meaning
import PinQuery.Proofs.Query.RoundTrip

/-!
# Programs depend on the meaning only

Queries with the same meaning have the same plan, so their sources have the same program.

* `Query.SameMeaning.answers` and `Plan.Answers.unique`: what a plan holds is fixed by the meaning of
  its query, since it is all sets, texts and numbers.
* `CompileAlike`: two sources have the same plan and the same program, or neither has one.
* `compile_depends_on_meaning`: sources are compiled alike if they are read with the same meaning, if
  their tokens restate each other, and if one is the canonical text of the other.
-/

namespace PinQuery

/-! ## Conditions without places -/

namespace Expr

theorem names_bare (e : Expr) : e.bare.names = e.names := by
  induction e with
  | column name => rfl
  | literal number => rfl
  | comparison op left right span ihleft ihright => simp only [bare, names, ihleft, ihright]
  | logical op left right span ihleft ihright => simp only [bare, names, ihleft, ihright]
  | negation inner span ih => simp only [bare, names, ih]

theorem isBinary_bare (e : Expr) : e.bare.isBinary = e.isBinary := by
  cases e <;> rfl

theorem isSupportedOperand_bare_iff {e : Expr} :
    e.bare.IsSupportedOperand ↔ e.IsSupportedOperand := by
  cases e with
  | column name => exact ⟨fun | .column hpin => .column hpin, fun | .column hpin => .column hpin⟩
  | literal number => exact ⟨fun _ => .literal _, fun _ => .literal _⟩
  | comparison | logical | negation => exact ⟨nofun, nofun⟩

theorem isSupported_bare_iff {e : Expr} : e.bare.IsSupported ↔ e.IsSupported := by
  induction e with
  | column | literal => exact ⟨nofun, nofun⟩
  | comparison op left right span _ _ =>
    have hleft := left.isSupportedOperand_bare_iff
    have hright := right.isSupportedOperand_bare_iff
    exact ⟨fun | .comparison h h' => .comparison (hleft.1 h) (hright.1 h'),
      fun | .comparison h h' => .comparison (hleft.2 h) (hright.2 h')⟩
  | logical op left right span ihleft ihright =>
    exact ⟨fun | .logical h h' => .logical (ihleft.1 h) (ihright.1 h'),
      fun | .logical h h' => .logical (ihleft.2 h) (ihright.2 h')⟩
  | negation inner span ih =>
    exact ⟨fun | .negation hbinary h => .negation (inner.isBinary_bare ▸ hbinary) (ih.1 h),
      fun | .negation hbinary h => .negation (inner.isBinary_bare.symm ▸ hbinary) (ih.2 h)⟩

theorem targetText_bare_eq_ok_iff {e : Expr} {text : String} :
    e.bare.targetText = .ok text ↔ e.targetText = .ok text := by
  induction e generalizing text with
  | column name => rfl
  | literal number => rfl
  | comparison op left right span ihleft ihright
  | logical op left right span ihleft ihright =>
    simp only [bare, targetText, bind_eq_ok_iff, ihleft, ihright]
  | negation inner span ih =>
    simp only [bare, targetText, isBinary_bare, isLogical_bare]
    split
    next => simp only [bind_eq_ok_iff, ih]
    next => simp

end Expr

namespace Query.SameMeaning

variable {query query' : Query}

theorem symm (h : query.SameMeaning query') : query'.SameMeaning query :=
  ⟨fun name => (h.columns name).symm, h.target.symm, h.condition.symm, h.sleep.symm, h.speed.symm⟩

/-- What holds of a condition whatever its places holds of both conditions. -/
theorem forall_condition (h : query.SameMeaning query') {P : Expr → Prop}
    (hbare : ∀ e, P e.bare ↔ P e) (hcondition : ∀ e ∈ query.condition, P e) :
    ∀ e ∈ query'.condition, P e := by
  intro e' he'
  have hmem : e'.bare ∈ query.condition.map Expr.bare := h.condition ▸ Option.mem_map_of_mem _ he'
  obtain ⟨e, he, hbare'⟩ := Option.map_eq_some_iff.1 hmem
  rw [← hbare, ← hbare', hbare]
  exact hcondition e he

theorem isValid (h : query.SameMeaning query') {vocabulary : List String}
    (hvalid : query.IsValid vocabulary) : query'.IsValid vocabulary where
  columns column hcolumn := by
    obtain ⟨column', hcolumn', htext⟩ :=
      List.mem_map.1 ((h.columns column.text).2 (List.mem_map_of_mem hcolumn))
    rw [← htext]
    exact hvalid.columns column' hcolumn'
  target := h.target ▸ hvalid.target
  condition := h.forall_condition (fun _ => Expr.isSupported_bare_iff) hvalid.condition

/-- A plan that answers a query answers every query with the same meaning. -/
theorem answers (h : query.SameMeaning query') {plan : Plan} (hanswers : plan.Answers query) :
    plan.Answers query' where
  mem_outputs name := by
    have hcolumns := h.columns name
    rw [List.mem_map, List.mem_map] at hcolumns
    rw [hanswers.mem_outputs, hcolumns]
  mem_referenced name := by
    have hnames (query : Query) : (∃ e ∈ query.condition, name ∈ e.names) ↔
        ∃ e ∈ query.condition.map Expr.bare, name ∈ e.names := by
      cases query.condition <;> simp [Expr.names_bare]
    rw [hanswers.mem_referenced, hnames, h.condition, ← hnames]
  mem_digitalIn := hanswers.mem_digitalIn
  mem_analogIn := hanswers.mem_analogIn
  mem_digitalOut := hanswers.mem_digitalOut
  mem_analogOut := hanswers.mem_analogOut
  digitalOut_subset := hanswers.digitalOut_subset
  analogOut_subset := hanswers.analogOut_subset
  always_iff := by
    rw [hanswers.always_iff, ← Option.map_eq_none_iff (f := Expr.bare), h.condition,
      Option.map_eq_none_iff]
  test := by
    refine h.forall_condition (fun e => ?_) hanswers.test
    simp only [Expr.targetText_bare_eq_ok_iff]
  sleep := by
    have hsleep := congrArg (Option.map Sleep.ofSeconds) h.sleep
    rw [Option.map_map, Option.map_map] at hsleep
    rw [hanswers.sleep]
    exact congrArg (·.getD .none) hsleep
  baud := by rw [hanswers.baud, h.speed]
  target := by rw [hanswers.target, h.target]

end Query.SameMeaning

/-- **A query has at most one plan that answers it.** -/
theorem Plan.Answers.unique {plan plan' : Plan} {query : Query} (h : plan.Answers query)
    (h' : plan'.Answers query) : plan' = plan := by
  have houtputs : plan'.usage.outputs = plan.usage.outputs :=
    OrderedSet.ext_mem fun name => by rw [h'.mem_outputs, h.mem_outputs]
  have hreferenced : plan'.usage.referenced = plan.usage.referenced :=
    OrderedSet.ext_mem fun name => by rw [h'.mem_referenced, h.mem_referenced, houtputs]
  have husage : plan'.usage = plan.usage := by
    cases hu' : plan'.usage
    cases hu : plan.usage
    simp_all
  have hpins : plan'.pins = plan.pins := by
    have h₁ : plan'.pins.digitalIn = plan.pins.digitalIn :=
      OrderedSet.ext_mem fun index => by rw [h'.mem_digitalIn, h.mem_digitalIn, husage]
    have h₂ : plan'.pins.analogIn = plan.pins.analogIn :=
      OrderedSet.ext_mem fun index => by rw [h'.mem_analogIn, h.mem_analogIn, husage]
    have h₃ : plan'.pins.digitalOut = plan.pins.digitalOut :=
      OrderedSet.ext_mem fun index => by rw [h'.mem_digitalOut, h.mem_digitalOut, husage]
    have h₄ : plan'.pins.analogOut = plan.pins.analogOut :=
      OrderedSet.ext_mem fun index => by rw [h'.mem_analogOut, h.mem_analogOut, husage]
    cases hp' : plan'.pins
    cases hp : plan.pins
    simp_all
  have hcondition : plan'.condition = plan.condition := by
    cases hquery : query.condition with
    | none => rw [h'.always_iff.2 hquery, h.always_iff.2 hquery]
    | some e =>
      obtain ⟨text, htext, htest⟩ := h.test e hquery
      obtain ⟨text', htext', htest'⟩ := h'.test e hquery
      rw [htext] at htext'
      cases htext'
      rw [htest, htest']
  have hsleep := h'.sleep.trans h.sleep.symm
  have hbaud := h'.baud.trans h.baud.symm
  have htarget := h'.target.trans h.target.symm
  cases plan
  cases plan'
  simp_all

/-- **Queries with the same meaning have the same plan.** -/
theorem Query.SameMeaning.ofQuery {query query' : Query} (h : query.SameMeaning query')
    {known : OrderedSet String} {plan : Plan} (hplan : Plan.ofQuery known query = .ok plan) :
    Plan.ofQuery known query' = .ok plan := by
  obtain ⟨vocabulary, rfl⟩ : ∃ vocabulary, known = .ofList vocabulary :=
    ⟨known.toList, OrderedSet.ext_mem fun _ => OrderedSet.mem_ofList.symm⟩
  have hvalid := h.isValid (Query.isValid_of_ofQuery hplan)
  obtain ⟨plan', hplan'⟩ := (Query.passes_iff.2 ⟨hvalid, rfl⟩).exists_ofQuery
  have hanswers := h.answers (Plan.answers_of_ofQuery hplan)
  rw [hplan', hanswers.unique (Plan.answers_of_ofQuery hplan')]

/-! ## Sources -/

/-- Two sources of which both have a program or neither has, and then the plans and the programs are
the same. -/
structure CompileAlike (registry : Registry) (source source' : String) : Prop where
  succeeds_iff : (∃ compiled, compile registry source = .ok compiled) ↔
    ∃ compiled', compile registry source' = .ok compiled'
  same : ∀ compiled compiled', compile registry source = .ok compiled →
    compile registry source' = .ok compiled' →
      compiled'.plan = compiled.plan ∧ compiled'.content = compiled.content

theorem Query.SameMeaning.compile {query query' : Query} (h : query.SameMeaning query')
    {registry : Registry} {source source' : String} {compiled : Compiled}
    (hparse : Query.parse source = .ok query) (hparse' : Query.parse source' = .ok query')
    (hcompile : PinQuery.compile registry source = .ok compiled) :
    PinQuery.compile registry source' = .ok { compiled with query := query' } := by
  obtain ⟨hparse'', hplan, hrenderer⟩ := compile_eq_ok_iff.1 hcompile
  rw [hparse] at hparse''
  cases hparse''
  exact compile_eq_ok_iff.2 ⟨hparse', h.ofQuery hplan, hrenderer⟩

/-- Sources that are read alike up to meaning are compiled alike. -/
theorem compileAlike_of_plain {source source' : String}
    (h : (Query.parse source).toOption.map Query.plain =
      (Query.parse source').toOption.map Query.plain) (registry : Registry) :
    CompileAlike registry source source' := by
  cases hparse : Query.parse source with
  | error e =>
    cases hparse' : Query.parse source' with
    | error e' =>
      have hfails {source : String} {e : SyntaxError} (hparse : Query.parse source = .error e)
          (compiled : Compiled) : compile registry source ≠ .ok compiled := by
        intro hcompile
        have := (compile_eq_ok_iff.1 hcompile).1
        rw [hparse] at this
        cases this
      exact ⟨⟨fun ⟨_, h⟩ => absurd h (hfails hparse _), fun ⟨_, h⟩ => absurd h (hfails hparse' _)⟩,
        fun _ _ h => absurd h (hfails hparse _)⟩
    | ok query' => rw [hparse, hparse'] at h; cases h
  | ok query =>
    cases hparse' : Query.parse source' with
    | error e' => rw [hparse, hparse'] at h; cases h
    | ok query' =>
      rw [hparse, hparse'] at h
      have hmeaning := Query.plain_eq_iff.1 (Option.some.inj h)
      refine ⟨⟨fun ⟨compiled, hcompile⟩ => ⟨_, hmeaning.compile hparse hparse' hcompile⟩,
        fun ⟨compiled', hcompile⟩ => ⟨_, hmeaning.symm.compile hparse' hparse hcompile⟩⟩,
        fun compiled compiled' hcompile hcompile' => ?_⟩
      rw [hmeaning.compile hparse hparse' hcompile] at hcompile'
      cases hcompile'
      exact ⟨rfl, rfl⟩

theorem Query.plain_of_bare {query query' : Query} (h : query.bare = query'.bare) :
    query.plain = query'.plain := by
  obtain ⟨hcolumns, htarget, hcondition, hsleep, hspeed, -⟩ := Query.mk.inj h
  have htexts : query.columns.map Name.text = query'.columns.map Name.text := by
    have := congrArg (List.map Name.text) hcolumns
    rwa [List.map_map, List.map_map] at this
  rw [plain, plain, htarget, hcondition, hsleep, hspeed, plainColumns_eq_iff.2]
  simp [htexts]

/-- **Compiling depends on the meaning of a source only.** Sources whose queries have the same
columns, the same target, the same condition up to places and quoting and the same settings are
compiled alike. So are sources whose tokens differ in places, quoting, the order and repetition of
columns and redundant parentheses only, and a source and the canonical text of its query. -/
theorem compile_depends_on_meaning (registry : Registry) (source : String) :
    (∀ source' query query', Query.parse source = .ok query → Query.parse source' = .ok query' →
      query.SameMeaning query' → CompileAlike registry source source') ∧
    (∀ source', faultsOf source = [] → faultsOf source' = [] →
      Restates (tokensOf source) (tokensOf source') → CompileAlike registry source source') ∧
    ∀ query, Query.parse source = .ok query → CompileAlike registry source query.canonical := by
  refine ⟨fun source' query query' hparse hparse' hmeaning => ?_,
    fun source' hfaults hfaults' hrestates => ?_, fun query hparse => ?_⟩
  · refine compileAlike_of_plain ?_ registry
    rw [hparse, hparse']
    exact congrArg some (Query.plain_eq_iff.2 hmeaning)
  · have hread {source : String} (hfaults : faultsOf source = []) :
        (Query.parse source).toOption.map Query.plain =
          Stage.select.reading (tokensOf source) := by
      rw [Query.parse, hfaults, ← Query.toOption_read]
    refine compileAlike_of_plain ?_ registry
    rw [hread hfaults, hread hfaults', hrestates.reading]
  · obtain ⟨query', hparse', hbare⟩ := (wellShaped_of_parse hparse).parse_canonical
    refine compileAlike_of_plain ?_ registry
    rw [hparse, hparse']
    exact congrArg some (Query.plain_of_bare hbare).symm

/-- A token without a place. -/
def Token.unplaced (kind : Kind) (text : String) : Token := ⟨kind, text, .empty 0⟩

theorem compile_depends_on_meaning_parenthesised :
    CompileAlike .builtin "SELECT din1, ain2 FROM board WHERE ain2 > din1"
        "SELECT `ain2`, din1, `ain2` FROM board WHERE (ain2 > din1)" ∧
      ∃ query, Query.parse "SELECT din1, ain2 FROM board WHERE ain2 > din1" = .ok query ∧
        CompileAlike .builtin "SELECT din1, ain2 FROM board WHERE ain2 > din1" query.canonical := by
  obtain ⟨-, hrestates, hcanonical⟩ := compile_depends_on_meaning .builtin
    "SELECT din1, ain2 FROM board WHERE ain2 > din1"
  constructor
  · refine hrestates _ (by decide +kernel) (by decide +kernel) ?_
    let din1 := Token.unplaced .name "din1"
    let ain2 := Token.unplaced .name "ain2"
    let comma := Token.unplaced .comma ""
    let select := Token.unplaced (.keyword .select) ""
    let clauses := [Token.unplaced (.keyword .from_) "", .unplaced .name "board",
      .unplaced (.keyword .where_) ""]
    let condition := [ain2, .unplaced .greater "", din1]
    have hcolumns : SpellsColumns [din1, comma, ain2]
        [⟨"din1", false, .empty 0⟩, ⟨"ain2", false, .empty 0⟩] := .more (.one rfl) rfl rfl
    have hcolumns' : SpellsColumns [ain2, comma, din1, comma, ain2]
        [⟨"ain2", false, .empty 0⟩, ⟨"din1", false, .empty 0⟩, ⟨"ain2", false, .empty 0⟩] :=
      .more (.more (.one rfl) rfl rfl) rfl rfl
    have hcondition : Redundant (.keyword .where_) condition none :=
      ⟨.factor, _, .comparison (.name rfl) .greater (.name rfl), by decide, nofun⟩
    have hplaces : Restates (tokensOf "SELECT din1, ain2 FROM board WHERE ain2 > din1")
        (select :: ([din1, comma, ain2] ++ (clauses ++ condition))) := .bare (by decide +kernel)
    have hplaces' : Restates (tokensOf "SELECT `ain2`, din1, `ain2` FROM board WHERE (ain2 > din1)")
        (select :: ([ain2, comma, din1, comma, ain2] ++ (clauses ++
          .unplaced .leftParen "" :: (condition ++ [.unplaced .rightParen ""])))) :=
      .bare (by decide +kernel)
    refine hplaces.trans (.trans (.columns hcolumns hcolumns' ?_) (.trans ?_ hplaces'.symm))
    · intro name
      simp only [List.map_cons, List.map_nil, List.mem_cons, List.not_mem_nil]
      tauto
    · exact @Restates.parens (select :: ([ain2, comma, din1, comma, ain2] ++ clauses.take 2))
        condition [] (.unplaced (.keyword .where_) "") (.unplaced .leftParen "")
        (.unplaced .rightParen "") hcondition rfl rfl
  · have hsome : (Query.parse "SELECT din1, ain2 FROM board WHERE ain2 > din1").toOption.isSome =
        true := by
      decide +kernel
    cases hparse : Query.parse "SELECT din1, ain2 FROM board WHERE ain2 > din1" with
    | error e => rw [hparse] at hsome; cases hsome
    | ok query => exact ⟨query, rfl, hcanonical query hparse⟩

end PinQuery
