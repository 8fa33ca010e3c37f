import PinQuery.Proofs.Plan.Offence
import PinQuery.Proofs.Query.Shape
import PinQuery.Proofs.Query.Spans

/-!
# Double negations

A query that was read from a source has comparisons of names and numbers, connectives and negations
in its condition, and nothing else. Of these the analysis supports all but the negation of a
negation.

* `Expr.nodes` are the nodes of a tree in the order in which a reader meets them, and
  `Expr.NegatesTwice` picks those where a `NOT` is applied directly to another `NOT`.
* `Expr.IsCondition.head?_offences`: the first offence of a condition with known pins is its first
  double negation, the inner `NOT` being named.
* `Spells.negationsLie`: the negations of a condition stand in its text in the same order, so the
  first double negation is the leftmost one (`Expr.findSome?_doubled?_eq_some_iff`).
* `doubleNegation_is_the_only_unsupported`: the analysis of a source.
-/

namespace PinQuery

/-! ## Nodes -/

namespace Expr

/-- The nodes of a tree, each before those below it and the left ones before the right ones. -/
def nodes : Expr → List Expr
  | .column name => [.column name]
  | .literal number => [.literal number]
  | .comparison op left right span =>
    .comparison op left right span :: (left.nodes ++ right.nodes)
  | .logical op left right span => .logical op left right span :: (left.nodes ++ right.nodes)
  | .negation inner span => .negation inner span :: inner.nodes

/-- A `NOT` with what it is applied to. -/
def isNegation : Expr → Bool
  | .negation _ _ => true
  | _ => false

/-- The inner one of two negations that follow each other directly. -/
def doubled? : Expr → Option Expr
  | .negation inner _ => if inner.isNegation then some inner else none
  | _ => none

/-- Somewhere in a condition the `NOT` of the node `outer` is applied directly to another `NOT`,
that of the node `inner`. -/
structure NegatesTwice (e outer inner : Expr) : Prop where
  mem : outer ∈ e.nodes
  outer_eq : ∃ span, outer = .negation inner span
  inner_eq : ∃ innermost span, inner = .negation innermost span

/-- The leftmost double negation of a condition: every other one begins behind it. -/
structure NegatesTwiceFirst (e outer inner : Expr) : Prop extends e.NegatesTwice outer inner where
  first : ∀ outer' inner', e.NegatesTwice outer' inner' →
    outer' = outer ∨ outer.span.start < outer'.span.start

theorem isNegation_iff {e : Expr} :
    e.isNegation = true ↔ ∃ inner span, e = .negation inner span := by
  cases e <;> simp [isNegation]

theorem doubled?_eq_some_iff {outer inner : Expr} :
    outer.doubled? = some inner ↔ (∃ span, outer = .negation inner span) ∧
      ∃ innermost span, inner = .negation innermost span := by
  rw [← isNegation_iff]
  cases outer with
  | negation node span =>
    by_cases hnode : node.isNegation = true
    · simp only [doubled?, hnode, if_true, Option.some.injEq, negation.injEq]
      grind
    · simp only [doubled?, hnode, negation.injEq]
      grind
  | column | literal | comparison | logical => simp [doubled?]

theorem negatesTwice_iff {e outer inner : Expr} :
    e.NegatesTwice outer inner ↔ outer ∈ e.nodes ∧ outer.doubled? = some inner := by
  rw [doubled?_eq_some_iff]
  exact ⟨fun h => ⟨h.mem, h.outer_eq, h.inner_eq⟩, fun h => ⟨h.1, h.2.1, h.2.2⟩⟩

theorem exists_negatesTwice_iff {e : Expr} :
    (∃ outer inner, e.NegatesTwice outer inner) ↔ (e.nodes.findSome? doubled?).isSome = true := by
  rw [List.findSome?_isSome_iff]
  simp only [negatesTwice_iff, Option.isSome_iff_exists]
  constructor
  · rintro ⟨outer, inner, hmem, hinner⟩
    exact ⟨outer, hmem, inner, hinner⟩
  · rintro ⟨outer, hmem, inner, hinner⟩
    exact ⟨outer, inner, hmem, hinner⟩

/-! ## The first offence -/

theorem IsOperand.isLeaf {e : Expr} (h : e.IsOperand) : e.isLeaf = true := by
  cases h <;> rfl

theorem IsOperand.operandOffences_eq_nil {e : Expr} (h : e.IsOperand)
    (hnames : ∀ name ∈ e.names, IsPinName name) : e.operandOffences = [] := by
  cases h with
  | @column name hname =>
    have hpin : IsPinName name.text := hnames name.text (by simp [names])
    rw [operandOffences, Name.offences, if_pos hpin]
  | literal => rfl

theorem IsOperand.findSome?_doubled? {e : Expr} (h : e.IsOperand) :
    e.nodes.findSome? doubled? = none := by
  cases h <;> rfl

/-- The first offence of a condition with known pins is its first double negation. -/
theorem IsCondition.head?_offences {e : Expr} (h : e.IsCondition)
    (hnames : ∀ name ∈ e.names, IsPinName name) :
    e.offences.head? = (e.nodes.findSome? doubled?).map Expr.unsupported := by
  induction h with
  | comparison hleft hright =>
    rw [names, List.forall_mem_append] at hnames
    rw [offences, if_pos ⟨hleft.isLeaf, hright.isLeaf⟩, hleft.operandOffences_eq_nil hnames.1,
      hright.operandOffences_eq_nil hnames.2, nodes, List.findSome?_cons, List.findSome?_append,
      hleft.findSome?_doubled?, hright.findSome?_doubled?]
    rfl
  | logical _ _ ihleft ihright =>
    rw [names, List.forall_mem_append] at hnames
    rw [offences, List.head?_append, ihleft hnames.1, ihright hnames.2, nodes,
      List.findSome?_cons, List.findSome?_append, ← Option.map_or]
    rfl
  | @negation inner span h ih =>
    rw [nodes, List.findSome?_cons]
    cases h with
    | negation => rfl
    | comparison => exact ih hnames
    | logical => exact ih hnames

/-! ## From left to right -/

/-- The negations in a tree. -/
def negations (e : Expr) : List Expr := e.nodes.filter isNegation

theorem isNegation_of_doubled? {e inner : Expr} (h : e.doubled? = some inner) :
    e.isNegation = true := by
  obtain ⟨⟨span, rfl⟩, -⟩ := doubled?_eq_some_iff.1 h
  rfl

/-- Where negations stand from left to right, the first double negation is the leftmost one. -/
theorem findSome?_doubled?_eq_some_iff {e inner : Expr}
    (h : e.negations.Pairwise fun node other => node.span.start < other.span.start) :
    e.nodes.findSome? doubled? = some inner ↔ ∃ outer, e.NegatesTwiceFirst outer inner := by
  have hfirst {inner : Expr} (hfind : e.nodes.findSome? doubled? = some inner) :
      ∃ outer, e.NegatesTwiceFirst outer inner := by
    obtain ⟨before, outer, after, hnodes, hinner, hbefore⟩ := List.findSome?_eq_some_iff.1 hfind
    refine ⟨outer, negatesTwice_iff.2 ⟨by simp [hnodes], hinner⟩, fun outer' inner' htwice => ?_⟩
    obtain ⟨hmem, hinner'⟩ := negatesTwice_iff.1 htwice
    rw [hnodes, List.mem_append, List.mem_cons] at hmem
    rcases hmem with hmem | rfl | hmem
    · exact absurd hinner' (by simp [hbefore outer' hmem])
    · exact .inl rfl
    · rw [negations, hnodes, List.filter_append,
        List.filter_cons_of_pos (isNegation_of_doubled? hinner)] at h
      have hafter := (List.pairwise_cons.1 (List.pairwise_append.1 h).2.1).1
      exact .inr (hafter outer' (List.mem_filter.2 ⟨hmem, isNegation_of_doubled? hinner'⟩))
  refine ⟨hfirst, fun ⟨outer, hleast⟩ => ?_⟩
  -- the one that is found first and the leftmost one are each not behind the other
  obtain ⟨found, hfind⟩ :=
    Option.isSome_iff_exists.1 (exists_negatesTwice_iff.1 ⟨outer, inner, hleast.toNegatesTwice⟩)
  obtain ⟨outer', hfound⟩ := hfirst hfind
  have houter : outer' = outer := by
    rcases hleast.first _ _ hfound.toNegatesTwice with heq | hlt
    · exact heq
    · rcases hfound.first _ _ hleast.toNegatesTwice with heq | hlt'
      · exact heq.symm
      · exact absurd hlt' (Nat.lt_asymm hlt)
  subst houter
  have hinner := (negatesTwice_iff.1 hleast.toNegatesTwice).2
  rw [(negatesTwice_iff.1 hfound.toNegatesTwice).2] at hinner
  rw [hfind, Option.some.inj hinner]

end Expr

/-- Tokens with a text have at least one byte; only the end of the query has none. -/
theorem start_lt_stop_of_mem_scan {source : String} {token : Token} (h : token ∈ scan source)
    (hkind : token.kind ≠ .endOfQuery) : token.span.start < token.span.stop := by
  rcases List.mem_append.1 h with h | h
  · obtain ⟨piece, hpiece, htoken⟩ := List.mem_filterMap.1 h
    obtain ⟨kind, -, rfl⟩ := Option.map_eq_some_iff.1 htoken
    exact Scan.start_lt_stop_of_mem_piecesFrom 0 source.toList piece hpiece
  · cases List.mem_singleton.1 h
    exact absurd rfl hkind

section

variable {cs : List Char} {lo hi : Nat} {tokens : List Token}

/-- The negations of a tree stand from left to right between two offsets. -/
def Expr.NegationsLie (e : Expr) (lo hi : Nat) : Prop :=
  (e.negations.Pairwise fun node other => node.span.start < other.span.start) ∧
    ∀ node ∈ e.negations, lo ≤ node.span.start ∧ node.span.start < hi

theorem SpellsOperand.negations_eq_nil {e : Expr} (h : SpellsOperand tokens e) :
    e.negations = [] := by
  cases h <;> rfl

/-- A node with two operands that is no negation itself, the right operand to the right of the left
one. -/
theorem Expr.NegationsLie.binary {e left right : Expr} {mid : Nat}
    (he : e.negations = left.negations ++ right.negations) (hleft : left.NegationsLie lo mid)
    (hright : right.NegationsLie mid hi) (hlo : lo ≤ mid) (hhi : mid ≤ hi) :
    e.NegationsLie lo hi := by
  rw [NegationsLie, he]
  refine ⟨List.pairwise_append.2 ⟨hleft.1, hright.1, fun node hnode other hother => ?_⟩,
    fun node hnode => ?_⟩
  · exact (hleft.2 node hnode).2.trans_le (hright.2 other hother).1
  · rcases List.mem_append.1 hnode with hnode | hnode
    · exact ⟨(hleft.2 node hnode).1, (hleft.2 node hnode).2.trans_le hhi⟩
    · exact ⟨hlo.trans (hright.2 node hnode).1, (hright.2 node hnode).2⟩

/-- The negations of a condition stand from left to right where its tokens do. -/
theorem Spells.negationsLie {level : Level} {e : Expr} (h : Spells level tokens e)
    (hplaced : Placed cs lo hi tokens)
    (hnonempty : ∀ token ∈ tokens, token.kind ≠ .endOfQuery → token.span.start < token.span.stop) :
    e.NegationsLie lo hi := by
  induction h generalizing lo hi with
  | conjunction _ ih => exact ih hplaced hnonempty
  | factor _ ih => exact ih hplaced hnonempty
  | or _ _ _ ihleft ihright | and _ _ _ ihleft ihright =>
    obtain ⟨mid, hlefts, hrights⟩ := placed_append.1 hplaced
    exact .binary (by simp [Expr.negations, Expr.nodes, Expr.isNegation])
      (ihleft hlefts fun token hmem => hnonempty token (by simp [hmem]))
      (ihright hrights.tail fun token hmem => hnonempty token (by simp [hmem])) hlefts.le hrights.le
  | @comparison lefts rights left right token op hleft _ hright =>
    have hnone : (Expr.comparison op left right (left.span.cover right.span)).negations = [] := by
      have hl := hleft.negations_eq_nil
      have hr := hright.negations_eq_nil
      simp_all [Expr.negations, Expr.nodes, Expr.isNegation]
    simp [Expr.NegationsLie, hnone]
  | @not token tokens e hkind h ih =>
    obtain ⟨htoken, htokens⟩ := hplaced
    have hstop := hnonempty token (by simp) (by simp [hkind])
    obtain ⟨hpairwise, hlie⟩ := ih htokens fun token hmem => hnonempty token (by simp [hmem])
    have hcons : (Expr.negation e ⟨token.span.start, lastStop tokens⟩).negations =
        .negation e ⟨token.span.start, lastStop tokens⟩ :: e.negations := rfl
    rw [Expr.NegationsLie, hcons, List.pairwise_cons, List.forall_mem_cons]
    refine ⟨⟨fun node hnode => ?_, hpairwise⟩, ⟨htoken.lo_le, ?_⟩, fun node hnode => ?_⟩
    · exact hstop.trans_le (hlie node hnode).1
    · exact hstop.trans_le htokens.le
    · exact ⟨htoken.le.trans (hlie node hnode).1, (hlie node hnode).2⟩
  | paren _ _ _ ih =>
    exact ih hplaced.tail.left fun token hmem => hnonempty token (by simp [hmem])

theorem SpellsQuery.negationsLie {query : Query} {e : Expr} (h : SpellsQuery tokens query)
    (hplaced : Placed cs lo hi tokens)
    (hnonempty : ∀ token ∈ tokens, token.kind ≠ .endOfQuery → token.span.start < token.span.stop)
    (he : e ∈ query.condition) : e.NegationsLie lo hi := by
  cases h with
  | query hdraft =>
    cases hdraft with
    | clauses _ _ _ _ hcondition =>
      have hafterTarget := hplaced.left.left.tail.right.tail.tail
      cases hcondition with
      | absent => cases he
      | present _ hspells =>
        cases he
        exact hspells.negationsLie hafterTarget.left.tail fun token hmem =>
          hnonempty token (by simp [hmem])

end

/-- The negations in the condition of a query stand from left to right in its source. -/
theorem pairwise_negations_of_parse {source : String} {query : Query} {e : Expr}
    (h : Query.parse source = .ok query) (he : e ∈ query.condition) :
    e.negations.Pairwise fun node other => node.span.start < other.span.start :=
  ((parse_eq_ok_iff.1 h).2.negationsLie (placed_scan source)
    (fun _ => start_lt_stop_of_mem_scan) he).1

/-! ## The analysis -/

/-- Of a query with known pins and a known target only the condition can be wrong. -/
theorem Query.offences_eq_condition {vocabulary : List String} {query : Query}
    (hcolumns : ∀ column ∈ query.columns, IsPinName column.text)
    (htarget : query.target.text ∈ vocabulary) :
    query.offences vocabulary = query.condition.elim [] Expr.offences := by
  have hnone : query.columns.flatMap Name.offences = [] :=
    List.flatMap_eq_nil_iff.2 fun column hmem => if_pos (hcolumns column hmem)
  rw [Query.offences, hnone, TargetName.offences, if_pos htarget]
  rfl

theorem exists_eq_ok_iff {ε α : Type} {x : Except ε α} :
    (∃ a, x = .ok a) ↔ ¬∃ e, x = .error e := by
  cases x <;> simp

/-- **Of the queries that can be read, the analysis refuses just those with a double negation**, as
long as it knows their pins and their target. It names the inner `NOT` of the leftmost one. -/
theorem doubleNegation_is_the_only_unsupported {source : String} {query : Query}
    (vocabulary : List String) (hparse : Query.parse source = .ok query)
    (hcolumns : ∀ column ∈ query.columns, IsPinName column.text)
    (hcondition : ∀ e ∈ query.condition, ∀ name ∈ e.names, IsPinName name)
    (htarget : query.target.text ∈ vocabulary) :
    ((∃ plan, Plan.ofQuery (.ofList vocabulary) query = .ok plan) ↔
      ∀ e ∈ query.condition, ∀ outer inner, ¬e.NegatesTwice outer inner) ∧
    ∀ error, Plan.ofQuery (.ofList vocabulary) query = .error error ↔
      ∃ e ∈ query.condition, ∃ outer inner, e.NegatesTwiceFirst outer inner ∧
        error = .unsupported inner.canonical inner.span := by
  -- the error is the first double negation in the order of the nodes
  have herror (error : SemanticError) : Plan.ofQuery (.ofList vocabulary) query = .error error ↔
      ∃ e ∈ query.condition, ∃ inner, e.nodes.findSome? Expr.doubled? = some inner ∧
        error = inner.unsupported := by
    rw [reportsFirst_ofQuery vocabulary query error, Query.offences_eq_condition hcolumns htarget]
    cases hquery : query.condition with
    | none => simp
    | some e =>
      have hhead := ((wellShaped_of_parse hparse).condition e hquery).head?_offences
        (hcondition e hquery)
      simp only [Option.elim_some, hhead, Option.map_eq_some_iff, Option.mem_some_iff,
        exists_eq_left', eq_comm (a := error)]
  refine ⟨?_, fun error => ?_⟩
  · rw [exists_eq_ok_iff]
    simp only [herror]
    constructor
    · intro hnone e he outer inner htwice
      obtain ⟨found, hfind⟩ :=
        Option.isSome_iff_exists.1 (Expr.exists_negatesTwice_iff.1 ⟨outer, inner, htwice⟩)
      exact hnone ⟨_, e, he, found, hfind, rfl⟩
    · rintro hnone ⟨error, e, he, inner, hfind, -⟩
      obtain ⟨outer, inner, htwice⟩ := Expr.exists_negatesTwice_iff.2 (by rw [hfind]; rfl)
      exact hnone e he outer inner htwice
  · rw [herror]
    refine exists_congr fun e => and_congr_right fun he => ?_
    simp only [Expr.findSome?_doubled?_eq_some_iff (pairwise_negations_of_parse hparse he)]
    constructor
    · rintro ⟨inner, ⟨outer, hfirst⟩, herror⟩
      exact ⟨outer, inner, hfirst, herror⟩
    · rintro ⟨outer, inner, hfirst, herror⟩
      exact ⟨inner, ⟨outer, hfirst⟩, herror⟩

/-- A source with three negations in a row, a parenthesis between them, and another double negation
to the right. -/
def tripleNegationSource : String :=
  "SELECT ain0 FROM board WHERE din1 = 0 OR NOT (NOT NOT din2 = 1 ) AND NOT NOT din3 > 2"

/-- The inner two of the three negations. -/
def innerNegations : Expr :=
  .negation (.negation (.comparison .equal (.column ⟨"din2", false, ⟨54, 58⟩⟩)
    (.literal ⟨.int 1, ⟨61, 62⟩⟩) ⟨54, 62⟩) ⟨50, 62⟩) ⟨46, 62⟩

/-- The query of the source. -/
def tripleNegationQuery : Query where
  columns := [⟨"ain0", false, ⟨7, 11⟩⟩]
  target := ⟨"board", ⟨17, 22⟩⟩
  condition := some (.logical .or
    (.comparison .equal (.column ⟨"din1", false, ⟨29, 33⟩⟩) (.literal ⟨.int 0, ⟨36, 37⟩⟩) ⟨29, 37⟩)
    (.logical .and (.negation innerNegations ⟨41, 64⟩)
      (.negation (.negation (.comparison .greater (.column ⟨"din3", false, ⟨77, 81⟩⟩)
        (.literal ⟨.int 2, ⟨84, 85⟩⟩) ⟨77, 85⟩) ⟨73, 85⟩) ⟨69, 85⟩) ⟨41, 85⟩) ⟨29, 85⟩)
  sleep := none
  speed := none
  span := ⟨0, 85⟩

/-- The second `NOT` of the three is named. -/
theorem doubleNegation_tripleNegationSource :
    Query.parse tripleNegationSource = .ok tripleNegationQuery ∧
      (∀ column ∈ tripleNegationQuery.columns, IsPinName column.text) ∧
      (∀ e ∈ tripleNegationQuery.condition, ∀ name ∈ e.names, IsPinName name) ∧
      tripleNegationQuery.target.text ∈ ["board"] ∧
      Plan.ofQuery (.ofList ["board"]) tripleNegationQuery =
        .error (.unsupported "NOT (NOT (`din2` = 1))" ⟨46, 62⟩) := by
  have hparse : Query.parse tripleNegationSource = .ok tripleNegationQuery := by decide +kernel
  have hcolumns : ∀ column ∈ tripleNegationQuery.columns, IsPinName column.text := by
    decide +kernel
  have hcondition : ∀ e ∈ tripleNegationQuery.condition, ∀ name ∈ e.names, IsPinName name := by
    intro e he
    cases he
    decide +kernel
  have htarget : tripleNegationQuery.target.text ∈ ["board"] := by decide
  obtain ⟨-, herror⟩ :=
    doubleNegation_is_the_only_unsupported ["board"] hparse hcolumns hcondition htarget
  have hpairwise := pairwise_negations_of_parse hparse rfl
  have hfind : ∃ e ∈ tripleNegationQuery.condition,
      e.nodes.findSome? Expr.doubled? = some innerNegations := ⟨_, rfl, by decide +kernel⟩
  obtain ⟨_, ⟨⟩, hfind⟩ := hfind
  obtain ⟨outer, hfirst⟩ := (Expr.findSome?_doubled?_eq_some_iff hpairwise).1 hfind
  refine ⟨hparse, hcolumns, hcondition, htarget, (herror _).2 ?_⟩
  exact ⟨_, rfl, outer, innerNegations, hfirst, by decide +kernel⟩

end PinQuery
