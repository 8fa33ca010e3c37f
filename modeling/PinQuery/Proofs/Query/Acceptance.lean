import Mathlib.Logic.ExistsUnique
import PinQuery.Proofs.Query.Stage

/-!
# The reader accepts exactly the grammar

* `Reaches stage tokens stage'`: reading the tokens leads from one stage to another.
* `Spells.completes`: the tokens of a condition lead from the place before it to the place behind
  it, with its tree built. Each level of the grammar leaves the reader in its own way, so the
  induction runs over the levels together (`Completes`).
* `spellsQuery_iff_read`: the reader gives a query exactly where the grammar does.
-/

namespace PinQuery

/-- Reading the tokens leads from one stage to another. -/
def Reaches (stage : Stage) (tokens : List Token) (stage' : Stage) : Prop :=
  tokens.foldlM Stage.step stage = .ok stage'

namespace Reaches

variable {stage stage' stage'' : Stage} {token : Token} {tokens more : List Token}

theorem cons (hnext : stage.next? token = some (.ok stage')) (h : Reaches stage' tokens stage'') :
    Reaches stage (token :: tokens) stage'' := by
  have hstep : stage.step token = .ok stage' := by rw [Stage.step, hnext]
  unfold Reaches
  rw [List.foldlM_cons, hstep]
  exact h

theorem single (hnext : stage.next? token = some (.ok stage')) : Reaches stage [token] stage' :=
  cons hnext rfl

theorem trans (h : Reaches stage tokens stage') (h' : Reaches stage' more stage'') :
    Reaches stage (tokens ++ more) stage'' := by
  unfold Reaches at *
  rw [List.foldlM_append, h]
  exact h'

end Reaches

/-! ## Operands -/

theorem Token.kind_of_name? {token : Token} {name : Name} (h : token.name? = some name) :
    token.kind = .name ∨ token.kind = .quotedName := by
  unfold Token.name? at h
  split at h
  next hkind => exact .inl hkind
  next hkind => exact .inr hkind
  next => cases h

theorem Token.kind_of_sign? {token : Token} {sign : Sign} (h : token.sign? = some sign) :
    token.kind = .plus ∨ token.kind = .minus :=
  (Token.sign?_eq_some_iff.1 h).imp And.left And.left

theorem Token.name?_eq_none_of_sign? {token : Token} {sign : Sign} (h : token.sign? = some sign) :
    token.name? = none := by
  rcases Token.kind_of_sign? h with hkind | hkind <;> simp [Token.name?, hkind]

/-- Every stage that waits for a number reads it in the same way: behind a sign it is `signed`, and
after the numeral `next`. -/
theorem SpellsNumber.reaches {tokens : List Token} {literal : Literal}
    (h : SpellsNumber tokens literal) (stage : Stage) (signed : Sign → Stage)
    (next : Literal → Stage)
    (hsign : ∀ token sign, token.sign? = some sign → stage.next? token = some (.ok (signed sign)))
    (hunsigned : ∀ token, token.kind = .number →
      stage.next? token = some ((token.literal none).map next))
    (hsigned : ∀ token sign, token.kind = .number →
      (signed sign).next? token = some ((token.literal (some sign)).map next)) :
    Reaches stage tokens (next literal) := by
  obtain ⟨signs, sign, token, rfl, hspells, hkind, hliteral⟩ := spellsNumber_iff.1 h
  cases hspells with
  | absent =>
    refine .single ?_
    rw [hunsigned token hkind, hliteral]
    rfl
  | present hspells =>
    refine .cons (hsign _ _ hspells) (.single ?_)
    rw [hsigned token _ hkind, hliteral]
    rfl

section

variable {tokens : List Token} {e : Expr} (draft : Draft) (parens : List Paren) (pending : Pending)

/-- A left operand leads to the place before the comparison sign. -/
theorem SpellsOperand.reachesOperator (h : SpellsOperand tokens e) :
    Reaches (.condition draft parens (.predicate pending)) tokens
      (.condition draft parens (.operator pending e)) := by
  cases h with
  | name hname =>
    refine .single ?_
    rcases Token.kind_of_name? hname with hkind | hkind <;>
      simp [Stage.next?, Place.next?, Pending.next?, hkind, hname]
  | number h =>
    refine h.reaches _ (fun sign => .condition draft parens (.leftNumber pending sign))
      (fun literal => .condition draft parens (.operator pending (.literal literal))) ?_ ?_ ?_
    · intro token sign hsign
      have hname := Token.name?_eq_none_of_sign? hsign
      rcases Token.kind_of_sign? hsign with hkind | hkind <;>
        simp [Stage.next?, Place.next?, Pending.next?, hkind, hname, hsign]
    · intro token hkind
      simp [Stage.next?, Place.next?, Pending.next?, hkind]
    · intro token sign hkind
      simp [Stage.next?, Place.next?, hkind]

/-- A right operand completes its comparison. -/
theorem SpellsOperand.reachesCompare (left : Expr) (op : Comparison) (h : SpellsOperand tokens e) :
    Reaches (.condition draft parens (.rightOperand pending left op)) tokens
      (.condition draft parens (pending.compare op left e)) := by
  cases h with
  | name hname =>
    refine .single ?_
    rcases Token.kind_of_name? hname with hkind | hkind <;>
      simp [Stage.next?, Place.next?, hkind, hname]
  | number h =>
    refine h.reaches _ (fun sign => .condition draft parens (.rightNumber pending left op sign))
      (fun literal => .condition draft parens (pending.compare op left (.literal literal))) ?_ ?_ ?_
    · intro token sign hsign
      have hname := Token.name?_eq_none_of_sign? hsign
      rcases Token.kind_of_sign? hsign with hkind | hkind <;>
        simp [Stage.next?, Place.next?, hkind, hname, hsign]
    · intro token hkind
      simp [Stage.next?, Place.next?, hkind]
    · intro token sign hkind
      simp [Stage.next?, Place.next?, hkind]

end

/-! ## Conditions -/

/-- How the reader gets past the tokens of a level. A factor completes what waits for it, a
conjunction stays apart from the disjunct on its left, and of a disjunction the last conjunction
stays apart. -/
def Level.Completes (tokens : List Token) (e : Expr) : Level → Prop
  | .factor => ∀ draft parens pending,
      Reaches (.condition draft parens (.predicate pending)) tokens
        (.condition draft parens (pending.complete e (lastStop tokens)))
  | .conjunction => ∀ draft parens disjunct,
      Reaches (.condition draft parens (.predicate ⟨disjunct, none, []⟩)) tokens
        (.condition draft parens (.ended disjunct e))
  | .disjunction => ∀ draft parens, ∃ disjunct value, Expr.joinOptional .or disjunct value = e ∧
      Reaches (.condition draft parens (.predicate .empty)) tokens
        (.condition draft parens (.ended disjunct value))

theorem Spells.completes {level : Level} {tokens : List Token} {e : Expr}
    (h : Spells level tokens e) : level.Completes tokens e := by
  induction h with
  | conjunction _ ih => exact fun draft parens => ⟨none, _, rfl, ih draft parens none⟩
  | @or lefts rights left right token _ hkind _ ihleft ihright =>
    intro draft parens
    obtain ⟨disjunct, value, rfl, hleft⟩ := ihleft draft parens
    have hor : (Stage.condition draft parens (.ended disjunct value)).next? token =
        some (.ok (.condition draft parens
          (.predicate ⟨some (.joinOptional .or disjunct value), none, []⟩))) := by
      simp [Stage.next?, Place.next?, hkind]
    exact ⟨_, right, rfl, hleft.trans (.cons hor (ihright draft parens _))⟩
  | factor _ ih => exact fun draft parens disjunct => ih draft parens ⟨disjunct, none, []⟩
  | @and lefts rights left right token _ hkind _ ihleft ihright =>
    intro draft parens disjunct
    have hand : (Stage.condition draft parens (.ended disjunct left)).next? token =
        some (.ok (.condition draft parens (.predicate ⟨disjunct, some left, []⟩))) := by
      simp [Stage.next?, Place.next?, hkind]
    exact (ihleft draft parens disjunct).trans (.cons hand (ihright draft parens _))
  | @not token tokens e hkind h ih =>
    intro draft parens pending
    have hnot : (Stage.condition draft parens (.predicate pending)).next? token =
        some (.ok (.condition draft parens
          (.predicate { pending with negations := token.span.start :: pending.negations }))) := by
      simp [Stage.next?, Place.next?, Pending.next?, hkind]
    rw [lastStop_cons_of_ne_nil token h.ne_nil]
    exact .cons hnot (ih draft parens _)
  | @paren opening closing tokens e hopening _ hclosing ih =>
    intro draft parens pending
    obtain ⟨disjunct, value, rfl, hinner⟩ := ih draft (⟨opening.span, pending⟩ :: parens)
    have hopen : (Stage.condition draft parens (.predicate pending)).next? opening =
        some (.ok (.condition draft (⟨opening.span, pending⟩ :: parens) (.predicate .empty))) := by
      simp [Stage.next?, Place.next?, Pending.next?, hopening]
    have hclose : (Stage.condition draft (⟨opening.span, pending⟩ :: parens)
        (.ended disjunct value)).next? closing = some (.ok (.condition draft parens
          (pending.complete (.joinOptional .or disjunct value) closing.span.stop))) := by
      simp [Stage.next?, Place.next?, hclosing]
    rw [← List.cons_append, lastStop_append_singleton]
    exact .cons hopen (hinner.trans (.single hclose))
  | @comparison lefts rights left right token op hleft hop hright =>
    intro draft parens pending
    have hcompare : (Stage.condition draft parens (.operator pending left)).next? token =
        some (.ok (.condition draft parens (.rightOperand pending left op))) := by
      simp [Stage.next?, Place.next?, Kind.comparison?_eq_some_iff.2 hop]
    have hstop : lastStop (lefts ++ token :: rights) = right.span.stop := by
      rw [List.append_cons, lastStop_append_of_ne_nil _ hright.stop.1, hright.stop.2]
    rw [hstop]
    exact (hleft.reachesOperator draft parens pending).trans
      (.cons hcompare (hright.reachesCompare draft parens pending left op))

/-! ## Clauses -/

theorem SpellsColumns.reaches {tokens : List Token} {names : List Name}
    (h : SpellsColumns tokens names) (start : Nat) :
    Reaches (.column start []) tokens (.columnEnd start names) := by
  induction h with
  | one hname =>
    refine .single ?_
    simp [Stage.next?, hname]
  | @more tokens names comma token name _ hcomma hname ih =>
    have hcomma' : (Stage.columnEnd start names).next? comma = some (.ok (.column start names)) := by
      simp [Stage.next?, hcomma]
    have hname' : (Stage.column start names).next? token =
        some (.ok (.columnEnd start (names ++ [name]))) := by
      simp [Stage.next?, hname]
    exact ih.trans (.cons hcomma' (.single hname'))

theorem SpellsNumber.reachesSleep {tokens : List Token} {literal : Literal}
    (h : SpellsNumber tokens literal) (draft : Draft) :
    Reaches (.sleep draft none) tokens (.clauses { draft with sleep := some literal }) := by
  refine h.reaches _ (fun sign => .sleep draft (some sign))
    (fun literal => .clauses { draft with sleep := some literal }) ?_ ?_ ?_
  · intro token sign hsign
    rcases Token.kind_of_sign? hsign with hkind | hkind <;> simp [Stage.next?, hkind, hsign]
  · intro token hkind
    simp [Stage.next?, hkind]
  · intro token sign hkind
    simp [Stage.next?, hkind]

/-- A stage where the clauses read so far are complete. Behind a condition the reader does not yet
know that: another `AND` or `OR` could follow. -/
inductive Stage.Completed : Stage → Draft → Prop
  | clauses (draft : Draft) : Completed (.clauses draft) draft
  | condition (draft : Draft) (disjunct : Option Expr) (value : Expr) :
      Completed (.condition draft [] (.ended disjunct value))
        { draft with condition := some (.joinOptional .or disjunct value) }

namespace Stage.Completed

variable {stage : Stage} {draft : Draft}

theorem next {stage' : Stage} {token : Token} (h : Completed stage draft)
    (hnext : draft.next? token.kind = some stage') : stage.next? token = some (.ok stage') := by
  cases h with
  | clauses => simp [Stage.next?, hnext]
  | condition draft disjunct value =>
    simp only [Stage.next?, Place.next?]
    split
    next hkind => simp [Draft.next?, hkind] at hnext
    next hkind => simp [Draft.next?, hkind] at hnext
    next hparens => cases hparens
    next => simp [hnext]
    next hnil _ => exact absurd rfl hnil

theorem finish (h : Completed stage draft) (stop : Nat) :
    stage.finish? stop = some (draft.query stop) := by
  cases h <;> rfl

theorem addCondition {tokens : List Token} {condition : Option Expr} (h : Completed stage draft)
    (hcondition : draft.condition = none) (hsleep : draft.sleep = none) (hspeed : draft.speed = none)
    (hspells : SpellsCondition tokens condition) :
    ∃ stage', Reaches stage tokens stage' ∧ Completed stage' { draft with condition } := by
  cases hspells with
  | absent => exact ⟨stage, rfl, hcondition ▸ h⟩
  | @present token _ _ hkind hspells =>
    obtain ⟨disjunct, value, rfl, hreaches⟩ := hspells.completes draft []
    have hnext : draft.next? token.kind = some (.condition draft [] (.predicate .empty)) := by
      simp [hkind, Draft.next?, hcondition, hsleep, hspeed]
    exact ⟨_, .cons (h.next hnext) hreaches, .condition draft disjunct value⟩

theorem addSleep {tokens : List Token} {sleep : Option Literal} (h : Completed stage draft)
    (hsleep : draft.sleep = none) (hspeed : draft.speed = none)
    (hspells : SpellsSetting .rsleep tokens sleep) :
    ∃ stage', Reaches stage tokens stage' ∧ Completed stage' { draft with sleep } := by
  cases hspells with
  | absent => exact ⟨stage, rfl, hsleep ▸ h⟩
  | @present token _ literal hkind hspells =>
    have hnext : draft.next? token.kind = some (.sleep draft none) := by
      simp [hkind, Draft.next?, hsleep, hspeed]
    exact ⟨_, .cons (h.next hnext) (hspells.reachesSleep draft), .clauses _⟩

theorem addSpeed {tokens : List Token} {speed : Option Literal} (h : Completed stage draft)
    (hspeed : draft.speed = none) (hspells : SpellsSetting .rspeed tokens speed) :
    ∃ stage', Reaches stage tokens stage' ∧ Completed stage' { draft with speed } := by
  cases hspells with
  | absent => exact ⟨stage, rfl, hspeed ▸ h⟩
  | @present token _ literal hkind hspells =>
    have hnext : draft.next? token.kind = some (.speed draft none) := by
      simp [hkind, Draft.next?, hspeed]
    refine ⟨_, .cons (h.next hnext) ?_, .clauses _⟩
    refine hspells.reaches _ (fun sign => .speed draft (some sign))
      (fun literal => .clauses { draft with speed := some literal }) ?_ ?_ ?_
    · intro token sign hsign
      rcases Token.kind_of_sign? hsign with hkind | hkind <;> simp [Stage.next?, hkind, hsign]
    · intro token hkind
      simp [Stage.next?, hkind]
    · intro token sign hkind
      simp [Stage.next?, hkind]

end Stage.Completed

/-! ## Queries -/

/-- The clauses of a query lead to a stage where they are complete. -/
theorem SpellsDraft.reaches {tokens : List Token} {draft : Draft} (h : SpellsDraft tokens draft) :
    ∃ stage, Reaches .select tokens stage ∧ stage.Completed draft := by
  cases h with
  | @clauses select from_ target columns conditions sleeps speeds names name condition sleep speed
      hselect hcolumns hfrom htarget hcondition hsleep hspeed =>
    have hselect' : Stage.select.next? select = some (.ok (.column select.span.start [])) := by
      simp [Stage.next?, hselect]
    have hfrom' : (Stage.columnEnd select.span.start names).next? from_ =
        some (.ok (.target select.span.start names)) := by
      simp [Stage.next?, hfrom]
    have htarget' : (Stage.target select.span.start names).next? target = some (.ok (.clauses
        ⟨select.span.start, names, ⟨name.text, name.span⟩, none, none, none⟩)) := by
      simp [Stage.next?, htarget]
    obtain ⟨stage₁, hreaches₁, h₁⟩ := (Stage.Completed.clauses
      ⟨select.span.start, names, ⟨name.text, name.span⟩, none, none, none⟩).addCondition
        rfl rfl rfl hcondition
    obtain ⟨stage₂, hreaches₂, h₂⟩ := h₁.addSleep rfl rfl hsleep
    obtain ⟨stage₃, hreaches₃, h₃⟩ := h₂.addSpeed rfl hspeed
    refine ⟨stage₃, .cons hselect' ((hcolumns.reaches _).trans ?_), h₃⟩
    exact .cons hfrom' (.cons htarget' (hreaches₁.trans (hreaches₂.trans hreaches₃)))

/-- The tokens of a query lead to a stage where it may end, and the end is all that follows. -/
theorem SpellsQuery.reaches {tokens : List Token} {query : Query} (h : SpellsQuery tokens query) :
    ∃ body final stage, tokens = body ++ [final] ∧ final.kind = .endOfQuery ∧
      Reaches .select body stage ∧ stage.finish? (lastStop body) = some query := by
  cases h with
  | @query clauses semicolons draft final hdraft hsemicolon hfinal =>
    obtain ⟨stage, hreaches, hcompleted⟩ := hdraft.reaches
    cases hsemicolon with
    | absent =>
      refine ⟨clauses ++ [], final, stage, rfl, hfinal, ?_, hcompleted.finish _⟩
      rw [List.append_nil]
      exact hreaches
    | @present semicolon hkind =>
      have hnext : draft.next? semicolon.kind = some (.closed draft) := by
        simp [Draft.next?, hkind]
      exact ⟨clauses ++ [semicolon], final, .closed draft, rfl, hfinal,
        hreaches.trans (.single (hcompleted.next hnext)), rfl⟩

/-- **The reader accepts exactly the token sequences of the grammar** and gives the query they
spell. -/
theorem read_eq_ok_iff {tokens : List Token} {size : Nat} {query : Query} :
    Query.read tokens size = .ok query ↔ SpellsQuery (tokens ++ [.endAt size]) query := by
  constructor
  · intro h
    unfold Query.read at h
    cases hrun : tokens.foldlM Stage.step .select with
    | error e => rw [hrun] at h; cases h
    | ok stage =>
      rw [hrun] at h
      simp only [bind, Except.bind] at h
      have hstage := SpellsStage.select.run hrun
      split at h
      next query' hfinish =>
        cases h
        exact hstage.finish rfl hfinish
      next => cases h
  · intro h
    obtain ⟨body, final, stage, htokens, -, hreaches, hfinish⟩ := h.reaches
    obtain ⟨rfl, -⟩ := List.append_inj' htokens rfl
    unfold Reaches at hreaches
    simp only [Query.read, hreaches, bind, Except.bind, hfinish]

/-- Tokens spell at most one query. -/
theorem SpellsQuery.unique {tokens : List Token} {size : Nat} {query query' : Query}
    (h : SpellsQuery (tokens ++ [.endAt size]) query)
    (h' : SpellsQuery (tokens ++ [.endAt size]) query') : query' = query := by
  have hread := read_eq_ok_iff.2 h
  rw [read_eq_ok_iff.2 h'] at hread
  exact Except.ok.inj hread

theorem parse_eq_ok_iff {source : String} {query : Query} :
    Query.parse source = .ok query ↔ faultsOf source = [] ∧ SpellsQuery (scan source) query := by
  unfold Query.parse scan
  cases faultsOf source with
  | nil => simp [read_eq_ok_iff]
  | cons span spans => simp

/-- **Reading a source gives a query exactly where the source has no faulty stretch and its tokens
spell the query by the grammar, and then they spell no other.** The tree is that of the binding
strengths: `OR` and `AND` chains lean to the left, `AND` binds tighter than `OR` and `NOT` tighter
than `AND`, and parentheses leave no node. -/
theorem parse_iff_grammatical (source : String) (query : Query) :
    Query.parse source = .ok query ↔ faultsOf source = [] ∧ SpellsQuery (scan source) query ∧
      ∃! tree, SpellsQuery (scan source) tree := by
  rw [parse_eq_ok_iff]
  constructor
  · rintro ⟨hfaults, h⟩
    exact ⟨hfaults, h, query, h, fun tree htree => h.unique htree⟩
  · rintro ⟨hfaults, h, -⟩
    exact ⟨hfaults, h⟩

end PinQuery
