import PinQuery.Proofs.Plan.Negation
import PinQuery.Proofs.Query.Locality

/-!
# The spans of a query are faithful

The reader puts the spans of a query together from the places of its tokens, and drops parentheses,
commas and keywords. What stands under a span is still what the part with this span says.

* `Expr.Nested`: in a tree the children lie inside their parents, the left ones before the right
  ones. Conditions that tokens spell are such trees (`Spells.nested`).
* `Strung lo hi spans`: the spans stand one behind the other, with something between them. Those of
  the clauses do (`SpellsDraft.strung`).
* `SpellsNode` and `Spells.exists_node`: every node of a condition but its connectives is spelled by
  tokens of its own, from the start of its span to the end.
* `spans_faithful`: the spans of every query that is read from a source.
-/

namespace PinQuery

open Text

/-! ## Spans inside one another -/

/-- One span lies inside another. -/
def Span.Within (inner outer : Span) : Prop :=
  outer.start ≤ inner.start ∧ inner.stop ≤ outer.stop

/-- Two spans lie inside a third one, the left one before the right one. -/
def Span.Holds (outer left right : Span) : Prop :=
  left.Within outer ∧ right.Within outer ∧ left.stop < right.start

/-- Every child lies inside its parent, and a left operand ends before the right one starts. -/
def Expr.Nested : Expr → Prop
  | .column _ => True
  | .literal _ => True
  | .comparison _ left right span => span.Holds left.span right.span ∧ left.Nested ∧ right.Nested
  | .logical _ left right span => span.Holds left.span right.span ∧ left.Nested ∧ right.Nested
  | .negation inner span => inner.span.Within span ∧ inner.Nested

section

variable {cs : List Char} {lo hi : Nat} {tokens : List Token}

/-- No token is empty. -/
def Filled (tokens : List Token) : Prop := ∀ token ∈ tokens, token.span.start < token.span.stop

theorem Filled.mono {more : List Token} (h : Filled more) (hsub : tokens ⊆ more) : Filled tokens :=
  fun token hmem => h token (hsub hmem)

theorem filled_append {more : List Token} :
    Filled (tokens ++ more) ↔ Filled tokens ∧ Filled more :=
  List.forall_mem_append

theorem Span.holds_cover {left right : Span} {mid mid' : Nat} (hleft : left.Lies cs lo mid)
    (hlt : mid < mid') (hright : right.Lies cs mid' hi) : (left.cover right).Holds left right := by
  have hbefore : left.stop < right.start := by
    calc left.stop ≤ mid := hleft.le_hi
      _ < mid' := hlt
      _ ≤ right.start := hright.lo_le
  refine ⟨⟨le_rfl, ?_⟩, ⟨?_, le_rfl⟩, hbefore⟩
  · exact hbefore.le.trans hright.ordered
  · exact hleft.ordered.trans hbefore.le

/-- Tokens stand between the start of the first and the end of the last one. -/
theorem Placed.frame {token : Token} (h : Placed cs lo hi (token :: tokens)) :
    Placed cs token.span.start (lastStop (token :: tokens)) (token :: tokens) := by
  induction tokens generalizing token lo with
  | nil => exact ⟨⟨h.1.start, h.1.stop, le_rfl, h.1.ordered, le_rfl⟩, le_rfl⟩
  | cons next tokens ih =>
    rw [lastStop_cons_of_ne_nil token (List.cons_ne_nil next tokens)]
    refine ⟨⟨h.1.start, h.1.stop, le_rfl, h.1.ordered, le_rfl⟩, ?_⟩
    exact (ih h.2).mono h.2.1.lo_le le_rfl

theorem SpellsOperand.nested {e : Expr} (h : SpellsOperand tokens e) : e.Nested := by
  cases h <;> trivial

/-- Between two operands stands a token, which is not empty. -/
theorem Placed.holds {lefts rights : List Token} {left right : Expr} {token : Token}
    (h : Placed cs lo hi (lefts ++ token :: rights)) (hfilled : Filled (lefts ++ token :: rights))
    (hleft : ∀ lo hi, Placed cs lo hi lefts → AllLie cs lo hi left.spans)
    (hright : ∀ lo hi, Placed cs lo hi rights → AllLie cs lo hi right.spans) :
    (left.span.cover right.span).Holds left.span right.span := by
  obtain ⟨mid, hlefts, hrights⟩ := placed_append.1 h
  have hlt : mid < token.span.stop := hrights.1.lo_le.trans_lt (hfilled token (by simp))
  exact Span.holds_cover (hleft _ _ hlefts _ left.span_mem_spans) hlt
    (hright _ _ hrights.2 _ right.span_mem_spans)

/-- **The trees of conditions are nested.** -/
theorem Spells.nested {level : Level} {e : Expr} (h : Spells level tokens e)
    (hplaced : Placed cs lo hi tokens) (hfilled : Filled tokens) : e.Nested := by
  induction h generalizing lo hi with
  | conjunction _ ih => exact ih hplaced hfilled
  | factor _ ih => exact ih hplaced hfilled
  | or hleft _ hright ihleft ihright | and hleft _ hright ihleft ihright =>
    refine ⟨hplaced.holds hfilled (fun _ _ => hleft.lies) (fun _ _ => hright.lies), ?_, ?_⟩
    · exact ihleft hplaced.left (hfilled.mono (by simp))
    · exact ihright hplaced.right.tail (hfilled.mono (by simp))
  | comparison hleft _ hright =>
    exact ⟨hplaced.holds hfilled (fun _ _ => hleft.lies) (fun _ _ => hright.lies), hleft.nested,
      hright.nested⟩
  | @not token tokens e _ h ih =>
    refine ⟨?_, ih hplaced.tail (hfilled.mono (by simp))⟩
    have hlies := h.lies hplaced.frame.tail _ e.span_mem_spans
    rw [lastStop_cons_of_ne_nil token h.ne_nil] at hlies
    exact ⟨hlies.lo_le, hlies.le_hi⟩
  | paren _ _ _ ih => exact ih hplaced.tail.left (hfilled.mono (by simp))

/-! ## Spans one behind the other -/

/-- The spans stand one behind the other between two offsets, with something before each of them. -/
def Strung (lo hi : Nat) (spans : List Span) : Prop :=
  (spans.Pairwise fun span other => span.stop < other.start) ∧
    ∀ span ∈ spans, lo < span.start ∧ span.stop ≤ hi

theorem Strung.nil : Strung lo hi [] := by simp [Strung]

theorem Strung.append {mid : Nat} {spans more : List Span} (h : Strung lo mid spans)
    (hmore : Strung mid hi more) (hlo : lo ≤ mid) (hhi : mid ≤ hi) :
    Strung lo hi (spans ++ more) := by
  refine ⟨List.pairwise_append.2 ⟨h.1, hmore.1, fun span hspan other hother => ?_⟩, ?_⟩
  · exact (h.2 span hspan).2.trans_lt (hmore.2 other hother).1
  · intro span hspan
    rcases List.mem_append.1 hspan with hspan | hspan
    · exact ⟨(h.2 span hspan).1, (h.2 span hspan).2.trans hhi⟩
    · exact ⟨hlo.trans_lt (hmore.2 span hspan).1, (hmore.2 span hspan).2⟩

/-- A phrase behind a token of its own. -/
theorem strung_singleton {token : Token} {span : Span} (hplaced : Placed cs lo hi (token :: tokens))
    (hfilled : Filled (token :: tokens))
    (hlies : ∀ lo hi, Placed cs lo hi tokens → span.Lies cs lo hi) : Strung lo hi [span] := by
  have hspan := hlies _ _ hplaced.2
  have hlt : lo < span.start := by
    calc lo ≤ token.span.start := hplaced.1.lo_le
      _ < token.span.stop := hfilled token (by simp)
      _ ≤ span.start := hspan.lo_le
  exact ⟨List.pairwise_singleton _ _, by simpa using ⟨hlt, hspan.le_hi⟩⟩

theorem SpellsColumns.strung {token : Token} {names : List Name} (h : SpellsColumns tokens names)
    (hplaced : Placed cs lo hi (token :: tokens)) (hfilled : Filled (token :: tokens)) :
    Strung lo hi (names.map Name.span) := by
  induction h generalizing hi with
  | one hname =>
    refine strung_singleton hplaced hfilled fun _ _ hplaced => ?_
    rw [Token.span_of_name? hname]
    exact hplaced.head_lies
  | @more tokens names comma last name _ _ hname ih =>
    rw [← List.cons_append] at hplaced
    obtain ⟨mid, hfirst, hsecond⟩ := placed_append.1 hplaced
    rw [List.map_append]
    refine (ih hfirst (hfilled.mono (by simp))).append ?_ hfirst.le hsecond.le
    refine strung_singleton hsecond (hfilled.mono (by simp)) fun _ _ hplaced => ?_
    rw [Token.span_of_name? hname]
    exact hplaced.head_lies

theorem SpellsCondition.strung {condition : Option Expr} (h : SpellsCondition tokens condition)
    (hplaced : Placed cs lo hi tokens) (hfilled : Filled tokens) :
    Strung lo hi (condition.toList.map Expr.span) := by
  cases h with
  | absent => exact .nil
  | present _ h =>
    refine strung_singleton hplaced hfilled fun _ _ hplaced => ?_
    exact h.lies hplaced _ (Expr.span_mem_spans _)

theorem SpellsSetting.strung {keyword : Keyword} {setting : Option Literal}
    (h : SpellsSetting keyword tokens setting) (hplaced : Placed cs lo hi tokens)
    (hfilled : Filled tokens) : Strung lo hi (setting.toList.map Literal.span) := by
  cases h with
  | absent => exact .nil
  | present _ h => exact strung_singleton hplaced hfilled fun _ _ hplaced => h.lies hplaced

/-- The spans of the clauses of a query, from left to right. -/
def Query.parts (query : Query) : List Span :=
  query.columns.map Name.span ++ ([query.target.span] ++ (query.condition.toList.map Expr.span
    ++ (query.sleep.toList.map Literal.span ++ query.speed.toList.map Literal.span)))

/-- **The clauses of a query stand one behind the other.** -/
theorem SpellsDraft.strung {draft : Draft} (h : SpellsDraft tokens draft)
    (hplaced : Placed cs lo hi tokens) (hfilled : Filled tokens) (stop : Nat) :
    Strung lo hi (draft.query stop).parts := by
  cases h with
  | @clauses select from_ target columns conditions sleeps speeds names name condition sleep speed
      _ hcolumns _ htarget hcondition hsleep hspeed =>
    have hcut : select :: (columns ++ from_ :: target :: (conditions ++ (sleeps ++ speeds))) =
        (select :: columns) ++ ([from_, target] ++ (conditions ++ (sleeps ++ speeds))) := rfl
    rw [hcut] at hplaced hfilled
    simp only [filled_append] at hfilled
    obtain ⟨hfilledColumns, hfilledTarget, hfilledCondition, hfilledSleep, hfilledSpeed⟩ := hfilled
    obtain ⟨afterColumns, hplacedColumns, hplaced⟩ := placed_append.1 hplaced
    obtain ⟨afterTarget, hplacedTarget, hplaced⟩ := placed_append.1 hplaced
    obtain ⟨afterCondition, hplacedCondition, hplaced⟩ := placed_append.1 hplaced
    obtain ⟨afterSleep, hplacedSleep, hplacedSpeed⟩ := placed_append.1 hplaced
    have hcolumns' := hcolumns.strung hplacedColumns hfilledColumns
    have htarget' : Strung afterColumns afterTarget [name.span] := by
      refine strung_singleton hplacedTarget hfilledTarget fun _ _ hplaced => ?_
      rw [Token.span_of_name? htarget]
      exact hplaced.head_lies
    have hcondition' := hcondition.strung hplacedCondition hfilledCondition
    have hsleep' := hsleep.strung hplacedSleep hfilledSleep
    have hspeed' := hspeed.strung hplacedSpeed hfilledSpeed
    have hsettings := hsleep'.append hspeed' hplacedSleep.le hplacedSpeed.le
    have hclauses := hcondition'.append hsettings hplacedCondition.le hplaced.le
    exact hcolumns'.append (htarget'.append hclauses hplacedTarget.le
      (hplacedCondition.le.trans hplaced.le)) hplacedColumns.le
      (hplacedTarget.le.trans (hplacedCondition.le.trans hplaced.le))

end

/-! ## The tokens of a node -/

/-- The tokens spell a node, from the start of its span to the end: an operand if it is a name or a
number, otherwise a factor. -/
structure SpellsNode (tokens : List Token) (node : Expr) : Prop where
  frames : node.span.Frames tokens
  operand : node.isLeaf = true → SpellsOperand tokens node
  factor : node.isLeaf = false → Spells .factor tokens node

section

variable {tokens : List Token}

/-- Two phrases with a token between them. -/
theorem Span.Frames.cover {lefts rights : List Token} {left right : Span} (h : left.Frames lefts)
    (token : Token) (hright : right.Frames rights) :
    (left.cover right).Frames (lefts ++ token :: rights) := by
  obtain ⟨first, rest, rfl, rfl⟩ := h
  obtain ⟨next, more, rfl, rfl⟩ := hright
  refine ⟨first, _, rfl, ?_⟩
  rw [List.append_cons, lastStop_append_of_ne_nil _ (List.cons_ne_nil next more)]
  rfl

theorem SpellsNumber.frames {literal : Literal} (h : SpellsNumber tokens literal) :
    literal.span.Frames tokens := by
  cases h <;> exact ⟨_, _, rfl, rfl⟩

theorem SpellsOperand.spellsNode {e : Expr} (h : SpellsOperand tokens e) : SpellsNode tokens e := by
  cases h with
  | name hname =>
    refine ⟨⟨_, _, rfl, ?_⟩, fun _ => .name hname, by simp [Expr.isLeaf]⟩
    rw [Expr.span, Token.span_of_name? hname]
    rfl
  | number h => exact ⟨h.frames, fun _ => .number h, by simp [Expr.isLeaf]⟩

theorem SpellsOperand.nodes_eq {e : Expr} (h : SpellsOperand tokens e) : e.nodes = [e] := by
  cases h <;> rfl

/-- **Every node but a connective is spelled by tokens of its own.** Those of a connective can have
parentheses at their ends, which its span leaves out. -/
theorem Spells.exists_node {level : Level} {e : Expr} (h : Spells level tokens e) :
    ∀ node ∈ e.nodes, node.isLogical = false →
      ∃ part, part <:+: tokens ∧ SpellsNode part node := by
  induction h with
  | conjunction _ ih => exact ih
  | factor _ ih => exact ih
  | @or lefts rights left right token _ _ _ ihleft ihright
  | @and lefts rights left right token _ _ _ ihleft ihright =>
    intro node hnode hlogical
    rw [Expr.nodes, List.mem_cons, List.mem_append] at hnode
    rcases hnode with rfl | hnode | hnode
    · cases hlogical
    · obtain ⟨part, hpart, hspells⟩ := ihleft node hnode hlogical
      exact ⟨part, hpart.trans (List.prefix_append _ _).isInfix, hspells⟩
    · obtain ⟨part, hpart, hspells⟩ := ihright node hnode hlogical
      exact ⟨part, hpart.trans ⟨lefts ++ [token], [], by simp⟩, hspells⟩
  | @not token tokens e hkind h ih =>
    intro node hnode hlogical
    rcases List.mem_cons.1 hnode with rfl | hnode
    · refine ⟨token :: tokens, List.infix_rfl, ⟨token, tokens, rfl, ?_⟩, by simp [Expr.isLeaf],
        fun _ => .not hkind h⟩
      rw [lastStop_cons_of_ne_nil token h.ne_nil]
      rfl
    · obtain ⟨part, hpart, hspells⟩ := ih node hnode hlogical
      exact ⟨part, hpart.trans (List.suffix_cons _ _).isInfix, hspells⟩
  | @paren opening closing tokens e _ _ _ ih =>
    intro node hnode hlogical
    obtain ⟨part, hpart, hspells⟩ := ih node hnode hlogical
    exact ⟨part, hpart.trans ⟨[opening], [closing], by simp⟩, hspells⟩
  | @comparison lefts rights left right token op hleft hop hright =>
    intro node hnode hlogical
    rw [Expr.nodes, hleft.nodes_eq, hright.nodes_eq] at hnode
    simp only [List.singleton_append, List.mem_cons, List.not_mem_nil, or_false] at hnode
    rcases hnode with rfl | rfl | rfl
    · have hcover := hleft.spellsNode.frames.cover token hright.spellsNode.frames
      refine ⟨_, List.infix_rfl, hcover, by simp [Expr.isLeaf], fun _ => ?_⟩
      exact .comparison hleft hop hright
    · exact ⟨lefts, (List.prefix_append _ _).isInfix, hleft.spellsNode⟩
    · exact ⟨rights, ⟨lefts ++ [token], [], by simp⟩, hright.spellsNode⟩

theorem SpellsColumns.exists_mem {names : List Name} (h : SpellsColumns tokens names) :
    ∀ name ∈ names, ∃ token ∈ tokens, token.name? = some name := by
  induction h with
  | one hname => simpa using hname
  | more _ _ hname ih =>
    intro name hmem
    rcases List.mem_append.1 hmem with hmem | hmem
    · obtain ⟨token, htoken, h⟩ := ih name hmem
      exact ⟨token, List.mem_append_left _ htoken, h⟩
    · obtain rfl := List.mem_singleton.1 hmem
      exact ⟨_, by simp, hname⟩

theorem SpellsCondition.exists_part {condition : Option Expr} {e : Expr}
    (h : SpellsCondition tokens condition) (he : e ∈ condition) :
    ∃ part, part <:+: tokens ∧ Spells .disjunction part e := by
  cases h with
  | absent => cases he
  | present _ h =>
    cases he
    exact ⟨_, (List.suffix_cons _ _).isInfix, h⟩

theorem SpellsSetting.exists_part {keyword : Keyword} {setting : Option Literal} {literal : Literal}
    (h : SpellsSetting keyword tokens setting) (hliteral : literal ∈ setting) :
    ∃ part, part <:+: tokens ∧ SpellsNumber part literal := by
  cases h with
  | absent => cases hliteral
  | present _ h =>
    cases hliteral
    exact ⟨_, (List.suffix_cons _ _).isInfix, h⟩

/-- The clauses of a query among its tokens. -/
structure HasClauses (tokens : List Token) (draft : Draft) : Prop where
  select : ∃ select rest, tokens = select :: rest ∧ select.kind = .keyword .select ∧
    draft.start = select.span.start
  columns : ∀ name ∈ draft.columns, ∃ token ∈ tokens, token.name? = some name
  target : ∃ token ∈ tokens, ∃ name, token.name? = some name ∧ draft.target = ⟨name.text, name.span⟩
  condition : ∀ e ∈ draft.condition, ∃ part, part <:+: tokens ∧ Spells .disjunction part e
  settings : ∀ literal, literal ∈ draft.sleep ∨ literal ∈ draft.speed →
    ∃ part, part <:+: tokens ∧ SpellsNumber part literal

theorem HasClauses.append {draft : Draft} (h : HasClauses tokens draft) (more : List Token) :
    HasClauses (tokens ++ more) draft where
  select := by
    obtain ⟨select, rest, rfl, hselect, hstart⟩ := h.select
    exact ⟨select, rest ++ more, rfl, hselect, hstart⟩
  columns name hmem := by
    obtain ⟨token, htoken, hname⟩ := h.columns name hmem
    exact ⟨token, List.mem_append_left more htoken, hname⟩
  target := by
    obtain ⟨token, htoken, hname⟩ := h.target
    exact ⟨token, List.mem_append_left more htoken, hname⟩
  condition e he := by
    obtain ⟨part, hpart, hspells⟩ := h.condition e he
    exact ⟨part, hpart.trans (List.prefix_append tokens more).isInfix, hspells⟩
  settings literal hliteral := by
    obtain ⟨part, hpart, hspells⟩ := h.settings literal hliteral
    exact ⟨part, hpart.trans (List.prefix_append tokens more).isInfix, hspells⟩

theorem SpellsDraft.hasClauses {draft : Draft} (h : SpellsDraft tokens draft) :
    HasClauses tokens draft := by
  cases h with
  | @clauses select from_ target columns conditions sleeps speeds names name condition sleep speed
      hselect hcolumns _ htarget hcondition hsleep hspeed =>
    refine ⟨⟨select, _, rfl, hselect, rfl⟩, ?_, ⟨target, by simp, name, htarget, rfl⟩, ?_, ?_⟩
    · intro name hmem
      obtain ⟨token, htoken, h⟩ := hcolumns.exists_mem name hmem
      exact ⟨token, by simp [htoken], h⟩
    · intro e he
      obtain ⟨part, hpart, h⟩ := hcondition.exists_part he
      exact ⟨part, hpart.trans ⟨select :: (columns ++ [from_, target]), sleeps ++ speeds, by simp⟩,
        h⟩
    · rintro literal (hliteral | hliteral)
      · obtain ⟨part, hpart, h⟩ := hsleep.exists_part hliteral
        exact ⟨part, hpart.trans
          ⟨select :: (columns ++ from_ :: target :: conditions), speeds, by simp⟩, h⟩
      · obtain ⟨part, hpart, h⟩ := hspeed.exists_part hliteral
        exact ⟨part, hpart.trans
          ⟨select :: (columns ++ from_ :: target :: (conditions ++ sleeps)), [], by simp⟩, h⟩

end

/-! ## Names in the source -/

/-- Under a span of the source stands a name, between backticks just if it is quoted. -/
structure IsWrittenAt (source : String) (span : Span) (text : String) (quoted : Bool) : Prop where
  slice_eq : slice? span source.toList = some (if quoted then quoteName text else text).toList
  token : ∃ token ∈ tokensOf source, token.span = span ∧
    token.kind = if quoted then .quotedName else .name

theorem isWrittenAt_of_name? {source : String} {token : Token} {name : Name}
    (hmem : token ∈ tokensOf source) (hname : token.name? = some name) :
    IsWrittenAt source name.span name.text name.quoted := by
  have hscan : token ∈ scan source := List.mem_append_left _ hmem
  have hslice := slice?_of_mem_scan hscan
  have hkind := Token.kind_of_name? hname
  have hspan := Token.span_of_name? hname
  rw [hspan]
  rcases hkind with hkind | hkind
  · obtain rfl : ⟨token.text, false, token.span⟩ = name := by simpa [Token.name?, hkind] using hname
    exact ⟨hslice, token, hmem, rfl, hkind⟩
  · obtain ⟨inside, -, htext⟩ := (formed_of_mem_scan hscan).quotedName hkind
    obtain rfl : ⟨String.ofList inside, true, token.span⟩ = name := by
      simpa [Token.name?, hkind, htext] using hname
    refine ⟨?_, token, hmem, rfl, hkind⟩
    rw [hslice, htext, if_pos rfl, toList_quoteName, String.toList_ofList]

/-! ## Queries of a source -/

section

variable {source : String} {query : Query}

theorem filled_tokensOf (source : String) : Filled (tokensOf source) := by
  intro token hmem
  exact start_lt_stop_of_mem_scan (List.mem_append_left _ hmem)
    (isLexeme_of_mem_tokensOf hmem).ne_endOfQuery

theorem exists_hasClauses_of_parse (h : Query.parse source = .ok query) :
    ∃ draft, HasClauses (tokensOf source) draft ∧ query = draft.query (lastStop (tokensOf source)) ∧
      Strung draft.start (lastStop (tokensOf source)) query.parts := by
  have hspells := (parse_eq_ok_iff.1 h).2
  have hplaced := placed_tokensOf source
  have hfilled := filled_tokensOf source
  generalize hscan : scan source = tokens at hspells
  cases hspells with
  | @query tokens semicolons draft final hdraft =>
    obtain ⟨htokens, -⟩ := List.append_inj' hscan rfl
    rw [htokens] at hplaced hfilled ⊢
    refine ⟨draft, hdraft.hasClauses.append semicolons, rfl, ?_⟩
    obtain ⟨select, rest, rfl, -, hstart⟩ := hdraft.hasClauses.select
    rw [hstart]
    exact hdraft.strung hplaced.frame.left (hfilled.mono (by simp)) _

/-- The condition of a query is nested. -/
theorem nested_of_parse (h : Query.parse source = .ok query) : ∀ e ∈ query.condition, e.Nested := by
  obtain ⟨draft, hclauses, rfl, -⟩ := exists_hasClauses_of_parse h
  intro e he
  obtain ⟨part, ⟨front, back, htokens⟩, hspells⟩ := hclauses.condition e he
  have hplaced := placed_tokensOf source
  have hfilled := filled_tokensOf source
  rw [← htokens] at hplaced hfilled
  exact hspells.nested hplaced.left.right (hfilled.mono (by simp))

/-- The spans of a query say where its parts stand in a source, and what stands there is what the
parts say. -/
structure Query.IsFaithful (query : Query) (source : String) : Prop where
  /-- The query goes from its first token, a `SELECT`, to the end of the last one. -/
  span_eq : ∃ first last, (tokensOf source).head? = some first ∧ first.kind = .keyword .select ∧
    (tokensOf source).getLast? = some last ∧ query.span = first.span.cover last.span
  /-- The clauses lie inside the query. -/
  within : ∀ span ∈ query.parts, span.Within query.span
  /-- The clauses follow one another. -/
  ordered : query.parts.Pairwise fun span other => span.stop < other.start
  /-- The nodes of the condition lie inside one another. -/
  nested : ∀ e ∈ query.condition, e.Nested
  /-- Names stand under their spans, those of the condition too. -/
  names : ∀ name, name ∈ query.columns ∨ (∃ e ∈ query.condition, .column name ∈ e.nodes) →
    IsWrittenAt source name.span name.text name.quoted
  /-- The target stands under its span. -/
  target : ∃ quoted, IsWrittenAt source query.target.span query.target.text quoted
  /-- What stands under the span of a number is read as this number. -/
  numbers : ∀ literal, literal ∈ query.sleep ∨ literal ∈ query.speed ∨
      (∃ e ∈ query.condition, .literal literal ∈ e.nodes) →
    ∃ text alone, slice? literal.span source.toList = some text.toList ∧
      Literal.parse? text = some alone ∧ literal = alone.shift literal.span.start
  /-- What stands under the span of a comparison or a negation is read as this node. -/
  nodes : ∀ e ∈ query.condition, ∀ node ∈ e.nodes, node.isLeaf = false → node.isLogical = false →
    ∃ text alone, slice? node.span source.toList = some text.toList ∧
      Expr.parse? text = some alone ∧ node = alone.shift node.span.start

/-- **The spans of a query are faithful.** -/
theorem spans_faithful (h : Query.parse source = .ok query) : query.IsFaithful source := by
  have hfaults := (parse_eq_ok_iff.1 h).1
  obtain ⟨draft, hclauses, rfl, hstrung⟩ := exists_hasClauses_of_parse h
  -- the tokens of a node of the condition are tokens of the source
  have hnode {e node : Expr} (he : e ∈ draft.condition) (hmem : node ∈ e.nodes)
      (hlogical : node.isLogical = false) :
      ∃ part, part <:+: tokensOf source ∧ SpellsNode part node := by
    obtain ⟨phrase, hphrase, hspells⟩ := hclauses.condition e he
    obtain ⟨part, hpart, hspells⟩ := hspells.exists_node node hmem hlogical
    exact ⟨part, hpart.trans hphrase, hspells⟩
  refine ⟨?_, ?_, hstrung.1, nested_of_parse h, ?_, ?_, ?_, ?_⟩
  · obtain ⟨select, rest, htokens, hkind, hstart⟩ := hclauses.select
    have hne : tokensOf source ≠ [] := by simp [htokens]
    obtain ⟨last, hlast⟩ := Option.ne_none_iff_exists'.1 (mt List.getLast?_eq_none_iff.1 hne)
    refine ⟨select, last, by simp [htokens], hkind, hlast, ?_⟩
    simp [Draft.query, lastStop, hlast, hstart, Span.cover]
  · intro span hspan
    exact ⟨(hstrung.2 span hspan).1.le, (hstrung.2 span hspan).2⟩
  · rintro name (hmem | ⟨e, he, hmem⟩)
    · obtain ⟨token, htoken, hname⟩ := hclauses.columns name hmem
      exact isWrittenAt_of_name? htoken hname
    · obtain ⟨part, hpart, hspells⟩ := hnode he hmem rfl
      cases hspells.operand rfl with
      | name hname => exact isWrittenAt_of_name? (hpart.subset (by simp)) hname
  · obtain ⟨token, htoken, name, hname, htarget⟩ := hclauses.target
    refine ⟨name.quoted, ?_⟩
    change IsWrittenAt source draft.target.span draft.target.text name.quoted
    rw [htarget]
    exact isWrittenAt_of_name? htoken hname
  · rintro literal (hmem | hmem | ⟨e, he, hmem⟩)
    · obtain ⟨part, hpart, hspells⟩ := hclauses.settings literal (.inl hmem)
      exact hspells.exists_parse? hfaults hpart hspells.frames
    · obtain ⟨part, hpart, hspells⟩ := hclauses.settings literal (.inr hmem)
      exact hspells.exists_parse? hfaults hpart hspells.frames
    · obtain ⟨part, hpart, hspells⟩ := hnode he hmem rfl
      cases hspells.operand rfl with
      | number h => exact h.exists_parse? hfaults hpart h.frames
  · intro e he node hmem hleaf hlogical
    obtain ⟨part, hpart, hspells⟩ := hnode he hmem hlogical
    exact Spells.exists_parse? (.conjunction (.factor (hspells.factor hleaf))) hfaults hpart
      hspells.frames

end

/-- A name with a character of two bytes, a negation that ends in a parenthesis, and a sign apart
from its number. -/
def signedSource : String :=
  "SELECT `é`, din1 FROM board WHERE NOT (din1 = - 5) OR ain0 > 1 RSLEEP 2;"

/-- The negation in the condition of the source. -/
def signedNegation : Expr :=
  .negation (.comparison .equal (.column ⟨"din1", false, ⟨40, 44⟩⟩) (.literal ⟨.int (-5), ⟨47, 50⟩⟩)
    ⟨40, 50⟩) ⟨35, 51⟩

/-- The query of the source. -/
def signedQuery : Query :=
  ⟨[⟨"é", true, ⟨7, 11⟩⟩, ⟨"din1", false, ⟨13, 17⟩⟩], ⟨"board", ⟨23, 28⟩⟩,
    some (.logical .or signedNegation (.comparison .greater (.column ⟨"ain0", false, ⟨55, 59⟩⟩)
      (.literal ⟨.int 1, ⟨62, 63⟩⟩) ⟨55, 63⟩) ⟨35, 63⟩),
    some ⟨.int 2, ⟨71, 72⟩⟩, none, ⟨0, 73⟩⟩

/-- The quoted name stands under its span with its backticks, the signed number is read from the
text under its span, and so is the negation, with both of its parentheses. -/
theorem spans_faithful_signedSource :
    Query.parse signedSource = .ok signedQuery ∧ signedQuery.IsFaithful signedSource ∧
    IsWrittenAt signedSource ⟨7, 11⟩ "é" true ∧
    (∃ text alone, slice? ⟨47, 50⟩ signedSource.toList = some text.toList ∧
      Literal.parse? text = some alone ∧ ⟨.int (-5), ⟨47, 50⟩⟩ = alone.shift 47) ∧
    ∃ text alone, slice? ⟨35, 51⟩ signedSource.toList = some text.toList ∧
      Expr.parse? text = some alone ∧ signedNegation = alone.shift 35 := by
  have hparse : Query.parse signedSource = .ok signedQuery := by decide +kernel
  have hfaithful := spans_faithful hparse
  refine ⟨hparse, hfaithful, ?_, ?_, ?_⟩
  · exact hfaithful.names ⟨"é", true, ⟨7, 11⟩⟩ (.inl (by simp [signedQuery]))
  · exact hfaithful.numbers ⟨.int (-5), ⟨47, 50⟩⟩
      (.inr (.inr ⟨_, rfl, by simp [Expr.nodes, signedNegation]⟩))
  · exact hfaithful.nodes _ rfl signedNegation (by simp [Expr.nodes, signedNegation]) rfl rfl

end PinQuery
