import PinQuery.Proofs.Query.Grammar

/-!
# What a stage remembers

The reader never looks back, so its stage has to hold all that the tokens read so far say. This
module spells that out: `SpellsStage tokens stage` relates a stage to the tokens that lead to it.

* `SpellsPending` are the operands that wait on one parenthesis level, `SpellsParens` the levels
  outside it, `SpellsPlace` the place on the innermost level.
* `SpellsStage.step`: one more token keeps the relation, whatever the stage.
* `SpellsStage.run`: so every stage that the reader reaches is related to the tokens it has read.
* `SpellsStage.finish`: where the reader may stop, the tokens spell the query that it gives.
-/

namespace PinQuery

/-! ## Waiting operands -/

/-- The left operand of a connective and the keyword behind it, or nothing. -/
inductive SpellsLeft (level : Level) (keyword : Keyword) : List Token → Option Expr → Prop
  | absent : SpellsLeft level keyword [] none
  | present {tokens : List Token} {token : Token} {e : Expr} (h : Spells level tokens e)
      (hkind : token.kind = .keyword keyword) : SpellsLeft level keyword (tokens ++ [token]) (some e)

/-- A run of `NOT`s and where they start, the innermost first. -/
inductive SpellsNegations : List Token → List Nat → Prop
  | nil : SpellsNegations [] []
  | snoc {tokens : List Token} {token : Token} {starts : List Nat} (h : SpellsNegations tokens starts)
      (hkind : token.kind = .keyword .not) :
      SpellsNegations (tokens ++ [token]) (token.span.start :: starts)

/-- What stands to the left of a predicate on its parenthesis level. -/
inductive SpellsPending : List Token → Pending → Prop
  | pending {disjuncts conjuncts nots : List Token} {pending : Pending}
      (hdisjunct : SpellsLeft .disjunction .or disjuncts pending.disjunct)
      (hconjunct : SpellsLeft .conjunction .and conjuncts pending.conjunct)
      (hnegations : SpellsNegations nots pending.negations) :
      SpellsPending (disjuncts ++ conjuncts ++ nots) pending

/-- The open parentheses, each with what stands to its left. -/
inductive SpellsParens : List Token → List Paren → Prop
  | nil : SpellsParens [] []
  | cons {outers inners : List Token} {token : Token} {paren : Paren} {parens : List Paren}
      (houter : SpellsParens outers parens) (h : SpellsPending inners paren.outer)
      (hkind : token.kind = .leftParen) (hspan : token.span = paren.span) :
      SpellsParens (outers ++ inners ++ [token]) (paren :: parens)

/-- The place on the innermost parenthesis level. -/
inductive SpellsPlace : List Token → Place → Prop
  | predicate {tokens : List Token} {pending : Pending} (h : SpellsPending tokens pending) :
      SpellsPlace tokens (.predicate pending)
  | leftNumber {tokens : List Token} {token : Token} {pending : Pending} {sign : Sign}
      (h : SpellsPending tokens pending) (hsign : token.sign? = some sign) :
      SpellsPlace (tokens ++ [token]) (.leftNumber pending sign)
  | operator {tokens lefts : List Token} {pending : Pending} {left : Expr}
      (h : SpellsPending tokens pending) (hleft : SpellsOperand lefts left) :
      SpellsPlace (tokens ++ lefts) (.operator pending left)
  | rightOperand {tokens lefts : List Token} {token : Token} {pending : Pending} {left : Expr}
      {op : Comparison} (h : SpellsPending tokens pending) (hleft : SpellsOperand lefts left)
      (hop : DenotesComparison token.kind op) :
      SpellsPlace (tokens ++ lefts ++ [token]) (.rightOperand pending left op)
  | rightNumber {tokens lefts : List Token} {token token' : Token} {pending : Pending} {left : Expr}
      {op : Comparison} {sign : Sign} (h : SpellsPending tokens pending)
      (hleft : SpellsOperand lefts left) (hop : DenotesComparison token.kind op)
      (hsign : token'.sign? = some sign) :
      SpellsPlace (tokens ++ lefts ++ [token, token']) (.rightNumber pending left op sign)
  | ended {disjuncts conjuncts : List Token} {disjunct : Option Expr} {value : Expr}
      (hdisjunct : SpellsLeft .disjunction .or disjuncts disjunct)
      (h : Spells .conjunction conjuncts value) :
      SpellsPlace (disjuncts ++ conjuncts) (.ended disjunct value)

/-- A place with the parentheses around it. -/
def SpellsInside (tokens : List Token) (parens : List Paren) (place : Place) : Prop :=
  ∃ outers inners, tokens = outers ++ inners ∧ SpellsParens outers parens ∧ SpellsPlace inners place

/-- The tokens that lead to a stage. -/
inductive SpellsStage : List Token → Stage → Prop
  | select : SpellsStage [] .select
  | firstColumn {select : Token} (hselect : select.kind = .keyword .select) :
      SpellsStage [select] (.column select.span.start [])
  | nextColumn {select comma : Token} {columns : List Token} {names : List Name}
      (hselect : select.kind = .keyword .select) (hcolumns : SpellsColumns columns names)
      (hcomma : comma.kind = .comma) :
      SpellsStage (select :: (columns ++ [comma])) (.column select.span.start names)
  | columnEnd {select : Token} {columns : List Token} {names : List Name}
      (hselect : select.kind = .keyword .select) (hcolumns : SpellsColumns columns names) :
      SpellsStage (select :: columns) (.columnEnd select.span.start names)
  | target {select from_ : Token} {columns : List Token} {names : List Name}
      (hselect : select.kind = .keyword .select) (hcolumns : SpellsColumns columns names)
      (hfrom : from_.kind = .keyword .from_) :
      SpellsStage (select :: (columns ++ [from_])) (.target select.span.start names)
  | clauses {tokens : List Token} {draft : Draft} (h : SpellsDraft tokens draft) :
      SpellsStage tokens (.clauses draft)
  | condition {tokens inside : List Token} {token : Token} {draft : Draft} {parens : List Paren}
      {place : Place} (h : SpellsDraft tokens draft) (hcondition : draft.condition = none)
      (hsleep : draft.sleep = none) (hspeed : draft.speed = none)
      (hkind : token.kind = .keyword .where_) (hplace : SpellsInside inside parens place) :
      SpellsStage (tokens ++ token :: inside) (.condition draft parens place)
  | sleep {tokens signs : List Token} {token : Token} {draft : Draft} {sign : Option Sign}
      (h : SpellsDraft tokens draft) (hsleep : draft.sleep = none) (hspeed : draft.speed = none)
      (hkind : token.kind = .keyword .rsleep) (hsign : SpellsSign signs sign) :
      SpellsStage (tokens ++ token :: signs) (.sleep draft sign)
  | speed {tokens signs : List Token} {token : Token} {draft : Draft} {sign : Option Sign}
      (h : SpellsDraft tokens draft) (hspeed : draft.speed = none)
      (hkind : token.kind = .keyword .rspeed) (hsign : SpellsSign signs sign) :
      SpellsStage (tokens ++ token :: signs) (.speed draft sign)
  | closed {tokens : List Token} {token : Token} {draft : Draft} (h : SpellsDraft tokens draft)
      (hkind : token.kind = .semicolon) : SpellsStage (tokens ++ [token]) (.closed draft)

/-! ## The ends of phrases -/

@[simp] theorem lastStop_append_singleton (tokens : List Token) (token : Token) :
    lastStop (tokens ++ [token]) = token.span.stop := by
  simp [lastStop]

theorem lastStop_append_of_ne_nil (tokens : List Token) {more : List Token} (h : more ≠ []) :
    lastStop (tokens ++ more) = lastStop more := by
  obtain ⟨last, hlast⟩ := Option.ne_none_iff_exists'.1 (mt List.getLast?_eq_none_iff.1 h)
  simp [lastStop, List.getLast?_append, hlast]

theorem lastStop_cons_of_ne_nil (token : Token) {tokens : List Token} (h : tokens ≠ []) :
    lastStop (token :: tokens) = lastStop tokens :=
  lastStop_append_of_ne_nil [token] h

theorem SpellsNumber.stop {tokens : List Token} {literal : Literal}
    (h : SpellsNumber tokens literal) : tokens ≠ [] ∧ literal.span.stop = lastStop tokens := by
  cases h <;> exact ⟨by simp, rfl⟩

theorem SpellsOperand.stop {tokens : List Token} {e : Expr} (h : SpellsOperand tokens e) :
    tokens ≠ [] ∧ e.span.stop = lastStop tokens := by
  cases h with
  | @name token name hname =>
    refine ⟨by simp, ?_⟩
    unfold Token.name? at hname
    split at hname <;> cases hname <;> rfl
  | number h => exact h.stop

theorem Spells.ne_nil {level : Level} {tokens : List Token} {e : Expr} (h : Spells level tokens e) :
    tokens ≠ [] := by
  induction h with
  | conjunction _ ih | factor _ ih => exact ih
  | or | and | not | paren | comparison => simp

/-! ## Completed phrases -/

/-- A left operand and its right neighbour. -/
theorem SpellsLeft.joinAnd {lefts rights : List Token} {left : Option Expr} {right : Expr}
    (hleft : SpellsLeft .conjunction .and lefts left) (hright : Spells .factor rights right) :
    Spells .conjunction (lefts ++ rights) (.joinOptional .and left right) := by
  cases hleft with
  | absent => exact .factor hright
  | present h hkind =>
    rw [List.append_assoc]
    exact .and h hkind hright

theorem SpellsLeft.joinOr {lefts rights : List Token} {left : Option Expr} {right : Expr}
    (hleft : SpellsLeft .disjunction .or lefts left) (hright : Spells .conjunction rights right) :
    Spells .disjunction (lefts ++ rights) (.joinOptional .or left right) := by
  cases hleft with
  | absent => exact .conjunction hright
  | present h hkind =>
    rw [List.append_assoc]
    exact .or h hkind hright

theorem SpellsNegations.wrap {nots tokens : List Token} {starts : List Nat} {e : Expr}
    (hnots : SpellsNegations nots starts) (h : Spells .factor tokens e) :
    Spells .factor (nots ++ tokens)
      (starts.foldl (fun inner start => .negation inner ⟨start, lastStop tokens⟩) e) := by
  induction hnots generalizing tokens e with
  | nil => exact h
  | @snoc nots token starts _ hkind ih =>
    have hwrapped := ih (.not hkind h)
    rw [lastStop_cons_of_ne_nil token h.ne_nil] at hwrapped
    rw [List.append_assoc]
    exact hwrapped

/-- A predicate completes the operands that wait for it. -/
theorem SpellsPending.complete {tokens factors : List Token} {pending : Pending} {e : Expr}
    (h : SpellsPending tokens pending) (hfactor : Spells .factor factors e) :
    SpellsPlace (tokens ++ factors) (pending.complete e (lastStop factors)) := by
  cases h with
  | pending hdisjunct hconjunct hnegations =>
    rw [List.append_assoc, List.append_assoc]
    exact .ended hdisjunct (hconjunct.joinAnd (hnegations.wrap hfactor))

theorem SpellsPending.compare {tokens lefts rights : List Token} {token : Token} {pending : Pending}
    {left right : Expr} {op : Comparison} (h : SpellsPending tokens pending)
    (hleft : SpellsOperand lefts left) (hop : DenotesComparison token.kind op)
    (hright : SpellsOperand rights right) :
    SpellsPlace (tokens ++ (lefts ++ token :: rights)) (pending.compare op left right) := by
  have hstop : lastStop (lefts ++ token :: rights) = right.span.stop := by
    rw [List.append_cons, lastStop_append_of_ne_nil _ hright.stop.1, hright.stop.2]
  unfold Pending.compare
  rw [← hstop]
  exact h.complete (.comparison hleft hop hright)

theorem SpellsPending.empty : SpellsPending [] .empty := by
  change SpellsPending ([] ++ [] ++ []) .empty
  exact .pending .absent .absent .nil

theorem SpellsPending.not {tokens : List Token} {token : Token} {pending : Pending}
    (h : SpellsPending tokens pending) (hkind : token.kind = .keyword .not) :
    SpellsPending (tokens ++ [token])
      { pending with negations := token.span.start :: pending.negations } := by
  cases h with
  | pending hdisjunct hconjunct hnegations =>
    rw [List.append_assoc]
    exact .pending hdisjunct hconjunct (hnegations.snoc hkind)

/-! ## One more token inside a condition -/

/-- A token that begins a predicate. -/
theorem SpellsPending.next {outers tokens : List Token} {token : Token} {pending : Pending}
    {draft : Draft} {parens : List Paren} {stage : Stage} (houter : SpellsParens outers parens)
    (h : SpellsPending tokens pending)
    (hnext : pending.next? draft parens token = some (.ok stage)) :
    ∃ parens' place, stage = .condition draft parens' place ∧
      SpellsInside (outers ++ tokens ++ [token]) parens' place := by
  unfold Pending.next? at hnext
  split at hnext
  next hkind =>
    cases hnext
    exact ⟨_, _, rfl, outers, tokens ++ [token], by simp, houter, .predicate (h.not hkind)⟩
  next hkind =>
    cases hnext
    exact ⟨_, _, rfl, outers ++ tokens ++ [token], [], by simp, .cons houter h hkind rfl,
      .predicate .empty⟩
  next hkind =>
    rw [Option.some.injEq] at hnext
    cases hliteral : token.literal none with
    | error e => rw [hliteral] at hnext; cases hnext
    | ok literal =>
      rw [hliteral] at hnext
      cases hnext
      have hnumber : SpellsNumber [token] literal :=
        spellsNumber_iff.2 ⟨[], none, token, rfl, .absent, hkind, hliteral⟩
      exact ⟨_, _, rfl, outers, tokens ++ [token], by simp, houter,
        .operator h (.number hnumber)⟩
  next =>
    split at hnext
    next name _ hname =>
      cases hnext
      exact ⟨_, _, rfl, outers, tokens ++ [token], by simp, houter, .operator h (.name hname)⟩
    next sign _ hsign =>
      cases hnext
      exact ⟨_, _, rfl, outers, tokens ++ [token], by simp, houter, .leftNumber h hsign⟩
    next => cases hnext

/-- A numeral that ends an operand. -/
theorem exists_spellsNumber {signs : List Token} {token : Token} {sign : Option Sign} {stage : Stage}
    {next : Literal → Stage} (hsign : SpellsSign signs sign) (hkind : token.kind = .number)
    (h : some ((token.literal sign).map next) = some (.ok stage)) :
    ∃ literal, SpellsNumber (signs ++ [token]) literal ∧ stage = next literal := by
  rw [Option.some.injEq] at h
  cases hliteral : token.literal sign with
  | error e => rw [hliteral] at h; cases h
  | ok literal =>
    rw [hliteral] at h
    cases h
    exact ⟨literal, spellsNumber_iff.2 ⟨signs, sign, token, rfl, hsign, hkind, hliteral⟩, rfl⟩

/-- One more token inside a condition leads to another place in it, or behind it when no
parenthesis is open. -/
theorem SpellsInside.next {tokens : List Token} {token : Token} {place : Place} {draft : Draft}
    {parens : List Paren} {stage : Stage} (h : SpellsInside tokens parens place)
    (hnext : place.next? draft parens token = some (.ok stage)) :
    (∃ parens' place', stage = .condition draft parens' place' ∧
      SpellsInside (tokens ++ [token]) parens' place') ∨
    ∃ e, Spells .disjunction tokens e ∧
      Draft.next? { draft with condition := some e } token.kind = some stage := by
  obtain ⟨outers, inners, rfl, houter, hplace⟩ := h
  cases hplace with
  | predicate h => exact .inl (h.next houter hnext)
  | leftNumber h hsign =>
    left
    simp only [Place.next?] at hnext
    split at hnext
    next hkind =>
      obtain ⟨literal, hnumber, rfl⟩ := exists_spellsNumber (.present hsign) hkind hnext
      exact ⟨_, _, rfl, outers, _, by simp, houter, .operator h (.number hnumber)⟩
    next => cases hnext
  | operator h hleft =>
    left
    simp only [Place.next?, Option.map_eq_some_iff] at hnext
    obtain ⟨op, hop, hstage⟩ := hnext
    cases hstage
    exact ⟨_, _, rfl, outers, _, by simp, houter,
      .rightOperand h hleft (Kind.comparison?_eq_some_iff.1 hop)⟩
  | rightOperand h hleft hop =>
    left
    simp only [Place.next?] at hnext
    split at hnext
    next hkind =>
      obtain ⟨literal, hnumber, rfl⟩ := exists_spellsNumber .absent hkind hnext
      exact ⟨_, _, rfl, outers, _, by simp, houter, h.compare hleft hop (.number hnumber)⟩
    next =>
      split at hnext
      next name _ hname =>
        cases hnext
        exact ⟨_, _, rfl, outers, _, by simp, houter, h.compare hleft hop (.name hname)⟩
      next sign _ hsign =>
        cases hnext
        exact ⟨_, _, rfl, outers, _, by simp, houter, .rightNumber h hleft hop hsign⟩
      next => cases hnext
  | rightNumber h hleft hop hsign =>
    left
    simp only [Place.next?] at hnext
    split at hnext
    next hkind =>
      obtain ⟨literal, hnumber, rfl⟩ := exists_spellsNumber (.present hsign) hkind hnext
      exact ⟨_, _, rfl, outers, _, by simp, houter, h.compare hleft hop (.number hnumber)⟩
    next => cases hnext
  | ended hdisjunct h =>
    simp only [Place.next?] at hnext
    split at hnext
    next hkind =>
      cases hnext
      exact .inl ⟨_, _, rfl, outers, _, by simp, houter,
        .predicate (.pending hdisjunct (.present h hkind) .nil)⟩
    next hkind =>
      cases hnext
      exact .inl ⟨_, _, rfl, outers, _, by simp, houter,
        .predicate (.pending (.present (hdisjunct.joinOr h) hkind) .absent .nil)⟩
    next paren outer hkind =>
      cases hnext
      cases houter with
      | cons houter hpending hopening _ =>
        have hclosed := hpending.complete (.paren hopening (hdisjunct.joinOr h) hkind)
        rw [← List.cons_append, lastStop_append_singleton] at hclosed
        exact .inl ⟨_, _, rfl, _, _, by simp, houter, hclosed⟩
    next =>
      simp only [Option.map_eq_some_iff] at hnext
      obtain ⟨stage', hdraft, hstage⟩ := hnext
      cases hstage
      cases houter
      exact .inr ⟨_, hdisjunct.joinOr h, hdraft⟩
    next => cases hnext

/-! ## One more clause -/

section

variable {tokens more : List Token} {token : Token} {draft : Draft}

theorem SpellsCondition.eq_nil (h : SpellsCondition tokens none) : tokens = [] := by
  cases h
  rfl

theorem SpellsSetting.eq_nil {keyword : Keyword} (h : SpellsSetting keyword tokens none) :
    tokens = [] := by
  cases h
  rfl

theorem SpellsDraft.addCondition {e : Expr} (h : SpellsDraft tokens draft)
    (hcondition : draft.condition = none) (hsleep : draft.sleep = none) (hspeed : draft.speed = none)
    (hkind : token.kind = .keyword .where_) (he : Spells .disjunction more e) :
    SpellsDraft (tokens ++ token :: more) { draft with condition := some e } := by
  cases h with
  | clauses hselect hcolumns hfrom htarget hwhere hrsleep hrspeed =>
    subst hcondition hsleep hspeed
    obtain rfl := hwhere.eq_nil
    obtain rfl := hrsleep.eq_nil
    obtain rfl := hrspeed.eq_nil
    have := SpellsDraft.clauses hselect hcolumns hfrom htarget (.present hkind he) hrsleep hrspeed
    simpa using this

theorem SpellsDraft.addSleep {literal : Literal} (h : SpellsDraft tokens draft)
    (hsleep : draft.sleep = none) (hspeed : draft.speed = none)
    (hkind : token.kind = .keyword .rsleep) (hliteral : SpellsNumber more literal) :
    SpellsDraft (tokens ++ token :: more) { draft with sleep := some literal } := by
  cases h with
  | clauses hselect hcolumns hfrom htarget hwhere hrsleep hrspeed =>
    subst hsleep hspeed
    obtain rfl := hrsleep.eq_nil
    obtain rfl := hrspeed.eq_nil
    have := SpellsDraft.clauses hselect hcolumns hfrom htarget hwhere (.present hkind hliteral)
      hrspeed
    simpa using this

theorem SpellsDraft.addSpeed {literal : Literal} (h : SpellsDraft tokens draft)
    (hspeed : draft.speed = none) (hkind : token.kind = .keyword .rspeed)
    (hliteral : SpellsNumber more literal) :
    SpellsDraft (tokens ++ token :: more) { draft with speed := some literal } := by
  cases h with
  | clauses hselect hcolumns hfrom htarget hwhere hrsleep hrspeed =>
    subst hspeed
    obtain rfl := hrspeed.eq_nil
    have := SpellsDraft.clauses hselect hcolumns hfrom htarget hwhere hrsleep
      (.present hkind hliteral)
    simpa using this

/-- A keyword or mark behind the clauses. -/
theorem SpellsDraft.next {stage : Stage} (h : SpellsDraft tokens draft)
    (hnext : draft.next? token.kind = some stage) : SpellsStage (tokens ++ [token]) stage := by
  unfold Draft.next? at hnext
  dsimp only at hnext
  split at hnext
  next hkind =>
    split at hnext
    next hbefore =>
      simp only [Bool.and_eq_true, Option.isNone_iff_eq_none] at hbefore
      cases hnext
      exact .condition h hbefore.2 hbefore.1.2 hbefore.1.1 hkind
        ⟨[], [], rfl, .nil, .predicate .empty⟩
    next => cases hnext
  next hkind =>
    split at hnext
    next hbefore =>
      simp only [Bool.and_eq_true, Option.isNone_iff_eq_none] at hbefore
      cases hnext
      exact .sleep h hbefore.2 hbefore.1 hkind .absent
    next => cases hnext
  next hkind =>
    split at hnext
    next hbefore =>
      cases hnext
      exact .speed h (Option.isNone_iff_eq_none.1 hbefore) hkind .absent
    next => cases hnext
  next hkind =>
    cases hnext
    exact .closed h hkind
  next => cases hnext

end

/-! ## One more token -/

namespace SpellsStage

variable {tokens more : List Token} {token : Token} {stage stage' : Stage}

theorem columnStep {start : Nat} {names : List Name} {name : Name}
    (h : SpellsStage tokens (.column start names)) (hname : token.name? = some name) :
    SpellsStage (tokens ++ [token]) (.columnEnd start (names ++ [name])) := by
  cases h with
  | firstColumn hselect => exact .columnEnd hselect (.one hname)
  | nextColumn hselect hcolumns hcomma =>
    have := SpellsStage.columnEnd hselect (.more hcolumns hcomma hname)
    simpa using this

/-- One more token keeps the relation between the tokens read and the stage. -/
theorem step (h : SpellsStage tokens stage) (hstep : stage.step token = .ok stage') :
    SpellsStage (tokens ++ [token]) stage' := by
  have hnext : stage.next? token = some (.ok stage') := by
    unfold Stage.step at hstep
    split at hstep
    next result hresult => rw [hresult, hstep]
    next => cases hstep
  cases stage with
  | select =>
    simp only [Stage.next?] at hnext
    split at hnext
    next hkind =>
      cases hnext
      cases h
      exact .firstColumn hkind
    next => cases hnext
  | column start names =>
    simp only [Stage.next?, Option.map_eq_some_iff] at hnext
    obtain ⟨name, hname, hstage⟩ := hnext
    cases hstage
    exact h.columnStep hname
  | columnEnd start names =>
    cases h with
    | columnEnd hselect hcolumns =>
      simp only [Stage.next?] at hnext
      split at hnext
      next hkind =>
        cases hnext
        exact .nextColumn hselect hcolumns hkind
      next hkind =>
        cases hnext
        exact .target hselect hcolumns hkind
      next => cases hnext
  | target start names =>
    cases h with
    | target hselect hcolumns hfrom =>
      simp only [Stage.next?, Option.map_eq_some_iff] at hnext
      obtain ⟨name, hname, hstage⟩ := hnext
      cases hstage
      have := SpellsDraft.clauses hselect hcolumns hfrom hname .absent .absent .absent
      exact .clauses (by simpa using this)
  | clauses draft =>
    cases h with
    | clauses h =>
      simp only [Stage.next?, Option.map_eq_some_iff] at hnext
      obtain ⟨stage'', hdraft, hstage⟩ := hnext
      cases hstage
      exact h.next hdraft
  | condition draft parens place =>
    cases h with
    | condition h hcondition hsleep hspeed hkind hplace =>
      rcases hplace.next hnext with ⟨parens', place', rfl, hplace'⟩ | ⟨e, he, hdraft⟩
      · have := SpellsStage.condition h hcondition hsleep hspeed hkind hplace'
        simpa using this
      · exact (h.addCondition hcondition hsleep hspeed hkind he).next hdraft
  | sleep draft sign =>
    cases h with
    | sleep h hsleep hspeed hkind hsign =>
      simp only [Stage.next?] at hnext
      split at hnext
      next hnumber =>
        obtain ⟨literal, hliteral, rfl⟩ := exists_spellsNumber hsign hnumber hnext
        have := (h.addSleep hsleep hspeed hkind hliteral)
        exact .clauses (by simpa using this)
      next sign' hsign' _ =>
        cases hnext
        cases hsign
        have := SpellsStage.sleep h hsleep hspeed hkind (.present hsign')
        simpa using this
      next => cases hnext
  | speed draft sign =>
    cases h with
    | speed h hspeed hkind hsign =>
      simp only [Stage.next?] at hnext
      split at hnext
      next hnumber =>
        obtain ⟨literal, hliteral, rfl⟩ := exists_spellsNumber hsign hnumber hnext
        have := (h.addSpeed hspeed hkind hliteral)
        exact .clauses (by simpa using this)
      next sign' hsign' _ =>
        cases hnext
        cases hsign
        have := SpellsStage.speed h hspeed hkind (.present hsign')
        simpa using this
      next => cases hnext
  | closed draft => cases hnext

/-- Every stage that is reached is related to the tokens that have been read. -/
theorem run (h : SpellsStage tokens stage) (hrun : more.foldlM Stage.step stage = .ok stage') :
    SpellsStage (tokens ++ more) stage' := by
  induction more generalizing tokens stage with
  | nil =>
    cases hrun
    simpa using h
  | cons token more ih =>
    rw [List.foldlM_cons] at hrun
    cases hstep : stage.step token with
    | error e => rw [hstep] at hrun; cases hrun
    | ok next =>
      rw [hstep] at hrun
      have := ih (h.step hstep) hrun
      simpa using this

/-- Where the reader may stop, the tokens spell the query that it gives. -/
theorem finish {final : Token} {query : Query} (h : SpellsStage tokens stage)
    (hfinal : final.kind = .endOfQuery) (hfinish : stage.finish? (lastStop tokens) = some query) :
    SpellsQuery (tokens ++ [final]) query := by
  unfold Stage.finish? at hfinish
  split at hfinish
  next =>
    cases hfinish
    cases h with
    | clauses h =>
      have := SpellsQuery.query h .absent hfinal
      simpa using this
  next =>
    cases hfinish
    cases h with
    | condition h hcondition hsleep hspeed hkind hplace =>
      obtain ⟨outers, inners, rfl, houter, hplace⟩ := hplace
      cases houter
      cases hplace with
      | ended hdisjunct hvalue =>
        have hdraft := h.addCondition hcondition hsleep hspeed hkind (hdisjunct.joinOr hvalue)
        have := SpellsQuery.query hdraft .absent hfinal
        simpa using this
  next =>
    cases hfinish
    cases h with
    | closed h hkind => exact .query h (.present hkind) hfinal
  next => cases hfinish

end SpellsStage

end PinQuery
