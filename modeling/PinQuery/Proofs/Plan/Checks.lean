import PinQuery.Proofs.Plan.Offence
import PinQuery.Proofs.Query.Alike
import PinQuery.Proofs.Query.Spans

/-!
# The checks of the analysis, one by one

The analysis makes its checks in a fixed order and stops at the first that fails. Offences list only
what fails; here the checks that pass are listed too, so that one can say how far the analysis came.

* `Query.checks` lists the checks of a query in their order. The offences of the query are those of
  its checks (`Query.offences_eq_filterMap`).
* `Query.FailsAt vocabulary query k error`: the check with the number `k` is the first to fail.
* `Query.identifiers` are the names in a query with their places. For a source, they are the names of
  its tokens from left to right (`SpellsQuery.identifiers_eq`), so no two stand at one place.
* `Query.Alike.checks`: alike queries have alike checks.
* `further_of_passes`: where the checks up to some place pass, the analysis comes further.
-/

namespace PinQuery

/-! ## Checks -/

/-- The checks of the analysis: a name has to be a pin, a target has to be known, and a node that is
no condition where one should stand is refused. -/
inductive Check
  | pin (name : Name)
  | target (wanted : TargetName)
  | refusal (node : Expr)
deriving DecidableEq

/-- What is wrong if a check fails. -/
def Check.offence? (vocabulary : List String) : Check → Option SemanticError
  | .pin name =>
    if IsPinName name.text then none else some (.unknownColumn name.text name.span)
  | .target wanted =>
    if wanted.text ∈ vocabulary then none
    else some (.unknownTarget wanted.text wanted.span (Text.sortedByBytes vocabulary))
  | .refusal node => some (.unsupported node.canonical node.span)

/-- The place of the name that is checked. -/
def Check.span? : Check → Option Span
  | .pin name => some name.span
  | .target wanted => some wanted.span
  | .refusal _ => none

/-- The names that pass a check. -/
def Check.Accepts (vocabulary : List String) : Check → String → Prop
  | .pin _, text => IsPinName text
  | .target _, text => text ∈ vocabulary
  | .refusal _, _ => False

section

variable {vocabulary : List String}

theorem Check.offence?_pin_eq_none_iff {name : Name} :
    (Check.pin name).offence? vocabulary = none ↔
      (Check.pin name).Accepts vocabulary name.text := by
  simp [offence?, Accepts]

theorem Check.offence?_target_eq_none_iff {wanted : TargetName} :
    (Check.target wanted).offence? vocabulary = none ↔
      (Check.target wanted).Accepts vocabulary wanted.text := by
  simp [offence?, Accepts]

end

/-- The checks of an operand of a comparison. -/
def Expr.operandChecks : Expr → List Check
  | .column name => [.pin name]
  | _ => []

/-- The checks of a condition, from left to right. -/
def Expr.checks : Expr → List Check
  | .column name => [.refusal (.column name)]
  | .literal number => [.refusal (.literal number)]
  | .comparison op left right span =>
    if left.isLeaf ∧ right.isLeaf then left.operandChecks ++ right.operandChecks
    else [.refusal (.comparison op left right span)]
  | .logical _ left right _ => left.checks ++ right.checks
  | .negation inner _ => if inner.isBinary then inner.checks else [.refusal inner]

/-- The checks of a query: the columns in their order, the target, the condition. -/
def Query.checks (query : Query) : List Check :=
  query.columns.map .pin ++ .target query.target :: query.condition.elim [] Expr.checks

section

variable (vocabulary : List String)

theorem Expr.operandOffences_eq_filterMap (e : Expr) :
    e.operandOffences = e.operandChecks.filterMap (Check.offence? vocabulary) := by
  cases e with
  | column name =>
    simp only [operandOffences, operandChecks, Name.offences, List.filterMap_cons, Check.offence?]
    split <;> rfl
  | literal | comparison | logical | negation => rfl

theorem Expr.offences_eq_filterMap (e : Expr) :
    e.offences = e.checks.filterMap (Check.offence? vocabulary) := by
  induction e with
  | column name => rfl
  | literal number => rfl
  | comparison op left right span _ _ =>
    rw [offences, checks]
    split
    next =>
      rw [List.filterMap_append, left.operandOffences_eq_filterMap vocabulary,
        right.operandOffences_eq_filterMap vocabulary]
    next => rfl
  | logical op left right span ihleft ihright =>
    rw [offences, checks, List.filterMap_append, ihleft, ihright]
  | negation inner span ih =>
    rw [offences, checks]
    split
    next => exact ih
    next => rfl

/-- The offences of a query are those of its checks. -/
theorem Query.offences_eq_filterMap (query : Query) :
    query.offences vocabulary = query.checks.filterMap (Check.offence? vocabulary) := by
  have hcolumns : query.columns.flatMap Name.offences =
      (query.columns.map Check.pin).filterMap (Check.offence? vocabulary) := by
    induction query.columns with
    | nil => rfl
    | cons column columns ih =>
      rw [List.flatMap_cons, ih, Name.offences, List.map_cons, List.filterMap_cons, Check.offence?]
      split <;> rfl
  have hcondition : query.condition.elim [] Expr.offences =
      (query.condition.elim [] Expr.checks).filterMap (Check.offence? vocabulary) := by
    cases query.condition with
    | none => rfl
    | some e => exact e.offences_eq_filterMap vocabulary
  have htarget : query.target.offences vocabulary =
      [Check.target query.target].filterMap (Check.offence? vocabulary) := by
    rw [TargetName.offences, List.filterMap_cons, Check.offence?]
    split <;> rfl
  rw [offences, checks, hcolumns, hcondition, htarget, List.append_assoc,
    ← List.filterMap_append, ← List.filterMap_append]
  rfl

/-- The check with the number `k` is the first to fail, and this is its error. -/
def Query.FailsAt (query : Query) (k : Nat) (error : SemanticError) : Prop :=
  ∃ passed check rest, query.checks = passed ++ check :: rest ∧ passed.length = k ∧
    check.offence? vocabulary = some error ∧ ∀ other ∈ passed, other.offence? vocabulary = none

/-- **The analysis fails with the error of the first check that does not pass.** -/
theorem ofQuery_eq_error_iff {query : Query} {error : SemanticError} :
    Plan.ofQuery (.ofList vocabulary) query = .error error ↔
      ∃ k, query.FailsAt vocabulary k error := by
  rw [reportsFirst_ofQuery vocabulary query error, Query.offences_eq_filterMap,
    List.head?_filterMap, List.findSome?_eq_some_iff]
  constructor
  · rintro ⟨passed, check, rest, hchecks, hcheck, hpassed⟩
    exact ⟨_, passed, check, rest, hchecks, rfl, hcheck, hpassed⟩
  · rintro ⟨_, passed, check, rest, hchecks, -, hcheck, hpassed⟩
    exact ⟨passed, check, rest, hchecks, hcheck, hpassed⟩

end

/-! ## Names and their places -/

/-- A name with its place. -/
def Name.located (name : Name) : String × Span := (name.text, name.span)

/-- The names in a condition with their places, from left to right. -/
def Expr.identifiers : Expr → List (String × Span)
  | .column name => [name.located]
  | .literal _ => []
  | .comparison _ left right _ => left.identifiers ++ right.identifiers
  | .logical _ left right _ => left.identifiers ++ right.identifiers
  | .negation inner _ => inner.identifiers

/-- The names in a query with their places: columns, target, condition. -/
def Query.identifiers (query : Query) : List (String × Span) :=
  query.columns.map Name.located ++ (query.target.text, query.target.span) ::
    query.condition.elim [] Expr.identifiers

/-- The names of tokens with their places, from left to right. -/
def identifiersOf (tokens : List Token) : List (String × Span) :=
  (tokens.filterMap Token.name?).map Name.located

section

variable {tokens : List Token} {token : Token}

@[simp] theorem identifiersOf_nil : identifiersOf [] = [] := rfl

@[simp] theorem identifiersOf_append (more : List Token) :
    identifiersOf (tokens ++ more) = identifiersOf tokens ++ identifiersOf more := by
  simp [identifiersOf]

theorem identifiersOf_cons_name {name : Name} (h : token.name? = some name) (more : List Token) :
    identifiersOf (token :: more) = name.located :: identifiersOf more := by
  simp [identifiersOf, h]

/-- A token of any other kind has no name. -/
@[simp] theorem identifiersOf_cons_other (hbare : token.kind ≠ .name)
    (hquoted : token.kind ≠ .quotedName) (more : List Token) :
    identifiersOf (token :: more) = identifiersOf more := by
  cases hname : token.name? with
  | none => simp [identifiersOf, hname]
  | some name =>
    rcases Token.kind_of_name? hname with h | h
    · exact absurd h hbare
    · exact absurd h hquoted

theorem SpellsNumber.identifiers_eq {literal : Literal} (h : SpellsNumber tokens literal) :
    identifiersOf tokens = [] := by
  cases h with
  | unsigned hkind => simp [hkind]
  | plus hsign hkind | minus hsign hkind => simp [hsign, hkind]

theorem SpellsOperand.identifiers_eq {e : Expr} (h : SpellsOperand tokens e) :
    e.identifiers = identifiersOf tokens := by
  cases h with
  | name hname => exact (identifiersOf_cons_name hname []).symm
  | number h => exact h.identifiers_eq.symm

theorem DenotesComparison.identifiersOf_cons {op : Comparison}
    (h : DenotesComparison token.kind op) (more : List Token) :
    identifiersOf (token :: more) = identifiersOf more := by
  refine identifiersOf_cons_other ?_ ?_ more <;> intro hkind <;> rw [hkind] at h <;> cases h

theorem Spells.identifiers_eq {level : Level} {e : Expr} (h : Spells level tokens e) :
    e.identifiers = identifiersOf tokens := by
  induction h with
  | conjunction _ ih | factor _ ih => exact ih
  | or _ hkind _ ihleft ihright | and _ hkind _ ihleft ihright =>
    simp [Expr.identifiers, ihleft, ihright, hkind]
  | not hkind _ ih => simp [Expr.identifiers, ih, hkind]
  | paren hopening _ hclosing ih => simp [ih, hopening, hclosing]
  | comparison hleft hop hright =>
    rw [Expr.identifiers, hleft.identifiers_eq, hright.identifiers_eq, identifiersOf_append,
      hop.identifiersOf_cons]

theorem SpellsColumns.identifiers_eq {names : List Name} (h : SpellsColumns tokens names) :
    names.map Name.located = identifiersOf tokens := by
  induction h with
  | one hname => exact (identifiersOf_cons_name hname []).symm
  | more _ hcomma hname ih => simp [ih, hcomma, identifiersOf_cons_name hname]

theorem SpellsCondition.identifiers_eq {condition : Option Expr}
    (h : SpellsCondition tokens condition) :
    condition.elim [] Expr.identifiers = identifiersOf tokens := by
  cases h with
  | absent => rfl
  | present hkind h => simp [hkind, h.identifiers_eq]

theorem SpellsSetting.identifiers_eq {keyword : Keyword} {setting : Option Literal}
    (h : SpellsSetting keyword tokens setting) : identifiersOf tokens = [] := by
  cases h with
  | absent => rfl
  | present hkind h => simp [hkind, h.identifiers_eq]

theorem SpellsSemicolon.identifiers_eq (h : SpellsSemicolon tokens) :
    identifiersOf tokens = [] := by
  cases h with
  | absent => rfl
  | present hkind => simp [hkind]

theorem SpellsDraft.identifiers_eq {draft : Draft} (h : SpellsDraft tokens draft) (stop : Nat) :
    (draft.query stop).identifiers = identifiersOf tokens := by
  cases h with
  | clauses hselect hcolumns hfrom htarget hcondition hsleep hspeed =>
    simp [Query.identifiers, Draft.query, Name.located, hselect, hfrom,
      hcolumns.identifiers_eq, identifiersOf_cons_name htarget, hcondition.identifiers_eq,
      hsleep.identifiers_eq, hspeed.identifiers_eq]

/-- **The names in a query are those of its tokens, from left to right.** -/
theorem SpellsQuery.identifiers_eq {query : Query} (h : SpellsQuery tokens query) :
    query.identifiers = identifiersOf tokens := by
  cases h with
  | query hdraft hsemicolon hfinal =>
    simp [hdraft.identifiers_eq, hsemicolon.identifiers_eq, hfinal]

end

/-- No two tokens of a source stand at one place. -/
theorem pairwise_span_tokensOf (source : String) :
    (tokensOf source).Pairwise fun token other => token.span ≠ other.span := by
  refine (Scan.pairwise_piecesFrom 0 source.toList).filterMap _ fun piece other hlt => ?_
  intro token htoken token' htoken' hspan
  obtain ⟨kind, -, rfl⟩ := Option.map_eq_some_iff.1 htoken
  obtain ⟨kind', -, rfl⟩ := Option.map_eq_some_iff.1 htoken'
  simp only at hspan
  rw [hspan] at hlt
  exact Nat.lt_irrefl _ hlt

/-- No two names of a source stand at one place. -/
theorem nodup_identifiersOf (source : String) :
    ((identifiersOf (tokensOf source)).map Prod.snd).Nodup := by
  rw [identifiersOf, List.map_map, List.Nodup, List.pairwise_map]
  refine (pairwise_span_tokensOf source).filterMap _ fun token token' hne => ?_
  intro name hname name' hname'
  rw [← Token.span_of_name? hname, ← Token.span_of_name? hname'] at hne
  exact hne

theorem identifiers_of_parse {source : String} {query : Query} (h : Query.parse source = .ok query) :
    query.identifiers = identifiersOf (tokensOf source) := by
  obtain ⟨-, hspells⟩ := parse_eq_ok_iff.1 h
  rw [hspells.identifiers_eq, scan]
  simp [Token.endAt]

/-! ## The places that are checked -/

theorem Expr.checks_sublist (e : Expr) :
    (e.checks.filterMap Check.span?).Sublist (e.identifiers.map Prod.snd) := by
  have hoperand (e : Expr) :
      (e.operandChecks.filterMap Check.span?).Sublist (e.identifiers.map Prod.snd) := by
    cases e with
    | column name => exact .refl _
    | literal | comparison | logical | negation => exact List.nil_sublist _
  induction e with
  | column name | literal number => exact List.nil_sublist _
  | comparison op left right span _ _ =>
    rw [checks, identifiers]
    split
    next =>
      rw [List.filterMap_append, List.map_append]
      exact (hoperand left).append (hoperand right)
    next => exact List.nil_sublist _
  | logical op left right span ihleft ihright =>
    rw [checks, identifiers, List.filterMap_append, List.map_append]
    exact ihleft.append ihright
  | negation inner span ih =>
    rw [checks, identifiers]
    split
    next => exact ih
    next => exact List.nil_sublist _

/-- The names that are checked are names of the query, from left to right. -/
theorem Query.checks_sublist (query : Query) :
    (query.checks.filterMap Check.span?).Sublist (query.identifiers.map Prod.snd) := by
  have hcolumns : (query.columns.map Check.pin).filterMap Check.span? =
      (query.columns.map Name.located).map Prod.snd := by
    rw [List.filterMap_map, List.map_map, ← List.filterMap_eq_map]
    rfl
  have hcondition : ((query.condition.elim [] Expr.checks).filterMap Check.span?).Sublist
      ((query.condition.elim [] Expr.identifiers).map Prod.snd) := by
    cases query.condition with
    | none => exact .refl _
    | some e => exact e.checks_sublist
  rw [checks, identifiers, List.filterMap_append, List.map_append, hcolumns]
  exact (List.Sublist.refl _).append (hcondition.cons_cons query.target.span)

/-! ## Checks of alike queries -/

/-- Checks of one kind of related names. -/
inductive Check.Alike (N : Name → Name → Prop) : Check → Check → Prop
  | pin {name name' : Name} (h : N name name') : Alike N (.pin name) (.pin name')
  | target {wanted wanted' : TargetName}
      (h : Relation.Map N Name.asTarget Name.asTarget wanted wanted') :
      Alike N (.target wanted) (.target wanted')
  | refusal (node node' : Expr) : Alike N (.refusal node) (.refusal node')

section

variable {N : Name → Name → Prop}

theorem Expr.Alike.isLeaf_eq {e e' : Expr} (h : e.Alike N e') : e'.isLeaf = e.isLeaf := by
  cases h <;> rfl

theorem Expr.Alike.isBinary_eq {e e' : Expr} (h : e.Alike N e') : e'.isBinary = e.isBinary := by
  cases h <;> rfl

theorem Expr.Alike.operandChecks {e e' : Expr} (h : e.Alike N e') :
    List.Forall₂ (Check.Alike N) e.operandChecks e'.operandChecks := by
  cases h with
  | column h => exact .cons (.pin h) .nil
  | literal | comparison | logical | negation => exact .nil

theorem Expr.Alike.checks {e e' : Expr} (h : e.Alike N e') :
    List.Forall₂ (Check.Alike N) e.checks e'.checks := by
  induction h with
  | column | literal => exact .cons (.refusal _ _) .nil
  | comparison hleft hright =>
    rw [Expr.checks, Expr.checks, hleft.isLeaf_eq, hright.isLeaf_eq]
    split
    next => exact List.rel_append hleft.operandChecks hright.operandChecks
    next => exact .cons (.refusal _ _) .nil
  | logical _ _ ihleft ihright => exact List.rel_append ihleft ihright
  | negation h ih =>
    rw [Expr.checks, Expr.checks, h.isBinary_eq]
    split
    next => exact ih
    next => exact .cons (.refusal _ _) .nil

/-- **Alike queries are checked alike**: the same checks in the same order. -/
theorem Query.Alike.checks {query query' : Query} (h : query.Alike N query') :
    List.Forall₂ (Check.Alike N) query.checks query'.checks := by
  have hcolumns : List.Forall₂ (Check.Alike N) (query.columns.map .pin)
      (query'.columns.map .pin) := by
    rw [List.forall₂_map_left_iff, List.forall₂_map_right_iff]
    exact h.columns.imp fun _ _ => .pin
  have hcondition : List.Forall₂ (Check.Alike N) (query.condition.elim [] Expr.checks)
      (query'.condition.elim [] Expr.checks) := by
    have hrel := h.condition
    generalize query.condition = condition, query'.condition = condition' at hrel
    cases hrel with
    | none => exact .nil
    | some h => exact h.checks
  exact List.rel_append hcolumns (.cons (.target h.target) hcondition)

end

/-- **Mending the first check that fails brings the analysis further.** If the checks of another query
that stand where those before it and itself stand pass, the other query has a plan or fails at a later
check. -/
theorem further_of_passes {vocabulary : List String} {query' : Query} {passed rest : List Check}
    {check : Check} (hchecks : query'.checks = passed ++ check :: rest)
    (hpassed : ∀ other ∈ passed, other.offence? vocabulary = none)
    (hcheck : check.offence? vocabulary = none) :
    (∃ plan, Plan.ofQuery (.ofList vocabulary) query' = .ok plan) ∨
      ∃ k error, passed.length < k ∧ query'.FailsAt vocabulary k error ∧
        Plan.ofQuery (.ofList vocabulary) query' = .error error := by
  cases hplan : Plan.ofQuery (.ofList vocabulary) query' with
  | ok plan => exact .inl ⟨plan, rfl⟩
  | error error =>
    obtain ⟨k, hfails⟩ := (ofQuery_eq_error_iff vocabulary).1 hplan
    refine .inr ⟨k, error, ?_, hfails, rfl⟩
    obtain ⟨passed', check', rest', hchecks', rfl, hcheck', -⟩ := hfails
    -- Up to the mended check every check passes, so the failing one stands behind it.
    by_contra hle
    have hmem : check' ∈ passed ++ [check] := by
      have hcut : passed' ++ check' :: rest' = passed ++ [check] ++ rest := by
        rw [← hchecks', hchecks]
        simp
      have hget : (passed ++ [check] ++ rest)[passed'.length]? = some check' := by
        rw [← hcut]
        simp
      rw [List.getElem?_append_left (by simp; omega)] at hget
      exact List.mem_of_getElem? hget
    rcases List.mem_append.1 hmem with hmem | hmem
    · rw [hpassed check' hmem] at hcheck'
      cases hcheck'
    · rw [List.mem_singleton.1 hmem, hcheck] at hcheck'
      cases hcheck'

end PinQuery
