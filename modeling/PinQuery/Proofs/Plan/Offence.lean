import PinQuery.Proofs.Plan.Exactness
import PinQuery.Proofs.Text.Order

/-!
# The analysis names the first offence

`Query.offences` lists everything that is wrong with a query, in the order in which a reader meets
it: the columns from left to right, the target, then the condition from left to right. The error of
the analysis is the first of the list, and there is none if the list is empty.

* `ReportsFirst`: a check fails with the first of some offences. One check after another reports the
  first offence of both (`ReportsFirst.bind`).
* `Expr.reportsFirst_checkCondition`: the walk through a condition, whatever pins were used before.
* `analysis_reports_first_offence`: the whole analysis, for a vocabulary in any order.
-/

namespace PinQuery

/-! ## Offences -/

/-- A name that is no pin. -/
def Name.offences (name : Name) : List SemanticError :=
  if IsPinName name.text then [] else [.unknownColumn name.text name.span]

/-- What is wrong with an operand of a comparison. -/
def Expr.operandOffences : Expr → List SemanticError
  | .column name => name.offences
  | _ => []

/-- What is wrong with a condition, from left to right. A comparison of anything but leaves is named
itself, whatever its operands are, and so is a leaf where a condition should stand. Of a negation
that wraps neither a comparison nor a connective, the node inside is named. -/
def Expr.offences : Expr → List SemanticError
  | .column name => [.unsupported (Expr.column name).canonical name.span]
  | .literal number => [.unsupported (Expr.literal number).canonical number.span]
  | .comparison op left right span =>
    if left.isLeaf ∧ right.isLeaf then left.operandOffences ++ right.operandOffences
    else [.unsupported (Expr.comparison op left right span).canonical span]
  | .logical _ left right _ => left.offences ++ right.offences
  | .negation inner _ =>
    if inner.isBinary then inner.offences else [.unsupported inner.canonical inner.span]

/-- A target outside the vocabulary, with the vocabulary sorted by bytes and without repetition. -/
def TargetName.offences (target : TargetName) (vocabulary : List String) : List SemanticError :=
  if target.text ∈ vocabulary then []
  else [.unknownTarget target.text target.span (Text.sortedByBytes vocabulary)]

/-- Everything that is wrong with a query: the columns in their order, the target, the condition. -/
def Query.offences (vocabulary : List String) (query : Query) : List SemanticError :=
  query.columns.flatMap Name.offences ++ query.target.offences vocabulary
    ++ query.condition.elim [] Expr.offences

/-! ## Checks that report the first offence -/

/-- A check that fails with the first of some offences, and passes if there are none. -/
def ReportsFirst {α : Type} (offences : List SemanticError) (result : Except SemanticError α) :
    Prop :=
  ∀ error, result = .error error ↔ offences.head? = some error

namespace ReportsFirst

variable {α β : Type} {offences offences' : List SemanticError}

theorem ok (a : α) : ReportsFirst [] (.ok a : Except SemanticError α) := by
  simp [ReportsFirst]

theorem error (e : SemanticError) : ReportsFirst [e] (.error e : Except SemanticError α) := by
  simp [ReportsFirst]

theorem eq_nil {a : α} (h : ReportsFirst offences (.ok a)) : offences = [] := by
  cases offences with
  | nil => rfl
  | cons e offences => cases (h e).2 rfl

/-- One check after another reports the first offence of both. -/
theorem bind {x : Except SemanticError α} {f : α → Except SemanticError β}
    (hx : ReportsFirst offences x) (hf : ∀ a, x = .ok a → ReportsFirst offences' (f a)) :
    ReportsFirst (offences ++ offences') (x >>= f) := by
  cases x with
  | error e =>
    intro error
    rw [List.head?_append, (hx e).1 rfl]
    simp [Bind.bind, Except.bind]
  | ok a =>
    rw [hx.eq_nil]
    exact hf a rfl

/-- A check whose result is only put into another form. -/
theorem map {x : Except SemanticError α} (hx : ReportsFirst offences x) (f : α → β) :
    ReportsFirst offences (x >>= fun a => pure (f a)) := by
  have h := hx.bind fun a _ => ok (f a)
  rwa [List.append_nil] at h

/-- A check that cannot fail. -/
theorem of_exists {x : Except SemanticError α} (h : ∃ a, x = .ok a) : ReportsFirst [] x := by
  obtain ⟨a, rfl⟩ := h
  exact ok a

end ReportsFirst

theorem Name.reportsFirst_checkPin (name : Name) : ReportsFirst name.offences name.checkPin := by
  by_cases h : IsPinName name.text
  · rw [offences, if_pos h, checkPin_eq_ok_iff.2 h]
    exact .ok ()
  · have hcheck : name.checkPin = .error (.unknownColumn name.text name.span) := if_neg h
    rw [offences, if_neg h, hcheck]
    exact .error _

theorem reportsFirst_checkColumns (columns : List Name) (usage : PinUsage) :
    ReportsFirst (columns.flatMap Name.offences) (checkColumns columns usage) := by
  induction columns generalizing usage with
  | nil => exact .ok usage
  | cons column columns ih =>
    rw [checkColumns, List.foldlM_cons, List.flatMap_cons]
    exact (column.reportsFirst_checkPin.map _).bind fun usage' _ => ih usage'

theorem TargetName.reportsFirst_check (target : TargetName) (vocabulary : List String) :
    ReportsFirst (target.offences vocabulary) (target.check (.ofList vocabulary)) := by
  unfold offences check
  rw [Text.toList_ofList_eq_sortedByBytes]
  simp only [OrderedSet.mem_ofList]
  split
  next => exact .ok ()
  next => exact .error _

namespace Expr

theorem reportsFirst_checkOperand {e : Expr} (h : e.isLeaf = true) (usage : PinUsage) :
    ReportsFirst e.operandOffences (e.checkOperand usage) := by
  cases e with
  | column name => exact name.reportsFirst_checkPin.map _
  | literal number => exact .ok usage
  | comparison | logical | negation => cases h

/-- The walk through a condition reports its first offence, whatever pins were used before. -/
theorem reportsFirst_checkCondition (e : Expr) (usage : PinUsage) :
    ReportsFirst e.offences (e.checkCondition usage) := by
  induction e generalizing usage with
  | column name => exact .error _
  | literal number => exact .error _
  | comparison op left right span _ _ =>
    rw [offences, checkCondition]
    by_cases hleaf : left.isLeaf ∧ right.isLeaf
    · rw [if_pos hleaf, if_pos (by simpa using hleaf)]
      exact (reportsFirst_checkOperand hleaf.1 usage).bind fun usage' _ =>
        reportsFirst_checkOperand hleaf.2 usage'
    · rw [if_neg hleaf, if_neg (by simpa using hleaf)]
      exact .error _
  | logical op left right span ihleft ihright =>
    rw [offences, checkCondition]
    exact (ihleft usage).bind fun usage' _ => ihright usage'
  | negation inner span ih =>
    rw [offences, checkCondition]
    by_cases hbinary : inner.isBinary = true
    · rw [if_pos hbinary, if_pos hbinary]
      exact ih usage
    · rw [if_neg hbinary, if_neg hbinary]
      exact .error _

end Expr

theorem reportsFirst_checkClause (condition : Option Expr) (usage : PinUsage) :
    ReportsFirst (condition.elim [] Expr.offences) (checkClause usage condition) := by
  cases condition with
  | none => exact .ok _
  | some e =>
    have h := (e.reportsFirst_checkCondition usage).bind
      (f := fun usage => do return (LoopCondition.test (← e.targetText), usage)) fun usage' hpass =>
        (ReportsFirst.of_exists
          (Expr.checkCondition_eq_ok_iff.1 hpass).1.exists_targetText).map _
    rwa [List.append_nil] at h

/-! ## The analysis -/

theorem Query.passes_of_checkClause {known : OrderedSet String} {query : Query}
    {columnUsage usage : PinUsage} {test : LoopCondition}
    (hcolumns : checkColumns query.columns .empty = .ok columnUsage)
    (htarget : query.target.check known = .ok ())
    (hclause : checkClause columnUsage query.condition = .ok (test, usage)) :
    query.Passes known usage := by
  refine ⟨columnUsage, hcolumns, htarget, ?_⟩
  cases hcondition : query.condition with
  | none =>
    rw [hcondition] at hclause
    cases hclause
    rfl
  | some e =>
    rw [hcondition] at hclause
    obtain ⟨usage', hpass, hclause⟩ := bind_eq_ok_iff.1 hclause
    obtain ⟨text, -, hclause⟩ := bind_eq_ok_iff.1 hclause
    cases hclause
    exact hpass

theorem reportsFirst_ofQuery (vocabulary : List String) (query : Query) :
    ReportsFirst (query.offences vocabulary) (Plan.ofQuery (.ofList vocabulary) query) := by
  rw [Query.offences, List.append_assoc, Plan.ofQuery]
  refine (reportsFirst_checkColumns query.columns .empty).bind fun columnUsage hcolumns => ?_
  refine (query.target.reportsFirst_check vocabulary).bind fun _ htarget => ?_
  rw [← List.append_nil (query.condition.elim [] Expr.offences)]
  refine (reportsFirst_checkClause query.condition columnUsage).bind fun clause hclause => ?_
  obtain ⟨test, usage⟩ := clause
  -- all checks have passed here
  have hpasses := Query.passes_of_checkClause hcolumns htarget hclause
  exact (ReportsFirst.of_exists hpasses.exists_partition).map _

/-- The error of the analysis for a set of known targets is one of the offences. -/
theorem mem_offences_of_ofQuery {known : OrderedSet String} {query : Query} {error : SemanticError}
    (h : Plan.ofQuery known query = .error error) : error ∈ query.offences known.toList := by
  have hknown : known = .ofList known.toList := OrderedSet.ext_mem fun name => by
    rw [OrderedSet.mem_ofList]
    rfl
  rw [hknown] at h
  exact List.mem_of_mem_head? ((reportsFirst_ofQuery known.toList query error).1 h)

/-- **The error of the analysis is the first offence of the query**, and a query without offences has
a plan. Order and repetition in the vocabulary do not matter. -/
theorem analysis_reports_first_offence (vocabulary : List String) (query : Query) :
    (∀ error, Plan.ofQuery (.ofList vocabulary) query = .error error ↔
      (query.offences vocabulary).head? = some error) ∧
    ∀ vocabulary' : List String, (∀ name, name ∈ vocabulary' ↔ name ∈ vocabulary) →
      Plan.ofQuery (.ofList vocabulary') query = Plan.ofQuery (.ofList vocabulary) query := by
  refine ⟨reportsFirst_ofQuery vocabulary query, fun vocabulary' hmem => ?_⟩
  have hset : OrderedSet.ofList vocabulary' = .ofList vocabulary :=
    OrderedSet.ext_mem fun name => by simpa using hmem name
  rw [hset]

/-- The query ``SELECT `din1` FROM `board` WHERE (`din7` = `foo` OR NOT `bar`)``, which has an unknown
pin in the first operand of its condition, and the negation of a leaf in the second. -/
def twoOffencesQuery : Query where
  columns := [⟨"din1", true, ⟨7, 13⟩⟩]
  target := ⟨"board", ⟨19, 26⟩⟩
  condition := some (.logical .or
    (.comparison .equal (.column ⟨"din7", true, ⟨34, 40⟩⟩) (.column ⟨"foo", true, ⟨43, 48⟩⟩) ⟨34, 48⟩)
    (.negation (.column ⟨"bar", true, ⟨56, 61⟩⟩) ⟨52, 61⟩) ⟨34, 61⟩)
  sleep := none
  speed := none
  span := ⟨0, 62⟩

theorem analysis_twoOffencesQuery :
    twoOffencesQuery.offences ["dev", "board"] =
        [.unknownColumn "foo" ⟨43, 48⟩, .unsupported "`bar`" ⟨56, 61⟩] ∧
      Plan.ofQuery (.ofList ["board", "dev", "board"]) twoOffencesQuery =
        .error (.unknownColumn "foo" ⟨43, 48⟩) := by
  have hoffences : twoOffencesQuery.offences ["dev", "board"] =
      [.unknownColumn "foo" ⟨43, 48⟩, .unsupported "`bar`" ⟨56, 61⟩] := by decide +kernel
  obtain ⟨herror, hvocabulary⟩ := analysis_reports_first_offence ["dev", "board"] twoOffencesQuery
  refine ⟨hoffences, ?_⟩
  rw [hvocabulary ["board", "dev", "board"] (by simp [or_comm])]
  exact (herror _).2 (by rw [hoffences]; rfl)

end PinQuery
