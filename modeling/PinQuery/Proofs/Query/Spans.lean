import PinQuery.Proofs.Query.Viability
import PinQuery.Proofs.Text.Cut
import PinQuery.Query.Explain

/-!
# Where the parts of a query stand

A token stands on boundaries of its source, and the tokens of a source follow one another. So every
span that the reader puts together from the start of one token and the end of another has its ends
in order and on boundaries.

* `Span.Lies cs lo hi`: the span has its ends in order, on boundaries of the text `cs`, and between
  the offsets `lo` and `hi`.
* `Placed cs lo hi tokens`: the tokens follow one another between two offsets. Of two parts the
  second follows the first (`placed_append`).
* `Stage.spans` and `Query.spans` are all spans that a stage or a query holds.
* `SpellsStage.lies` and `SpellsQuery.lies`: these spans lie where the tokens do. From this,
  `Reaches.lies` for every stage of a source, `lies_of_parse` for its query and
  `shownSpan_lies_of_parse` for its syntax error.
-/

namespace PinQuery

open Text

/-! ## Spans between two offsets -/

/-- The span has its ends in order, on boundaries of a text, and between two offsets. -/
structure Span.Lies (cs : List Char) (lo hi : Nat) (span : Span) : Prop where
  start : IsBoundary cs span.start
  stop : IsBoundary cs span.stop
  lo_le : lo ≤ span.start
  ordered : span.start ≤ span.stop
  le_hi : span.stop ≤ hi

namespace Span.Lies

variable {cs : List Char} {lo lo' mid hi hi' : Nat} {span other : Span}

theorem mono (h : span.Lies cs lo hi) (hlo : lo' ≤ lo) (hhi : hi ≤ hi') : span.Lies cs lo' hi' :=
  ⟨h.start, h.stop, hlo.trans h.lo_le, h.ordered, h.le_hi.trans hhi⟩

theorem le (h : span.Lies cs lo hi) : lo ≤ hi :=
  h.lo_le.trans (h.ordered.trans h.le_hi)

/-- From the start of a span to the end of one to the right of it. -/
theorem cover (h : span.Lies cs lo mid) (hother : other.Lies cs mid hi) :
    (span.cover other).Lies cs lo hi where
  start := h.start
  stop := hother.stop
  lo_le := h.lo_le
  ordered := by
    calc span.start ≤ span.stop := h.ordered
      _ ≤ mid := h.le_hi
      _ ≤ other.start := hother.lo_le
      _ ≤ other.stop := hother.ordered
  le_hi := hother.le_hi

theorem of_slice? {inside : List Char} (h : slice? span cs = some inside) :
    span.Lies cs 0 (byteLength cs) := by
  obtain ⟨hstart, hstop, hordered, hle⟩ := isBoundary_of_slice? h
  exact ⟨hstart, hstop, Nat.zero_le _, hordered, hle⟩

theorem exists_slice? (h : span.Lies cs lo hi) : ∃ inside, slice? span cs = some inside :=
  h.start.exists_slice? h.stop h.ordered

end Span.Lies

/-- All of some spans lie between two offsets. -/
def AllLie (cs : List Char) (lo hi : Nat) (spans : List Span) : Prop :=
  ∀ span ∈ spans, span.Lies cs lo hi

section

variable {cs : List Char} {lo lo' hi hi' : Nat} {span : Span} {spans more : List Span}

@[simp] theorem allLie_nil : AllLie cs lo hi [] := by simp [AllLie]

@[simp] theorem allLie_cons :
    AllLie cs lo hi (span :: spans) ↔ span.Lies cs lo hi ∧ AllLie cs lo hi spans := by
  simp [AllLie]

theorem allLie_singleton : AllLie cs lo hi [span] ↔ span.Lies cs lo hi := by simp [AllLie]

@[simp] theorem allLie_append :
    AllLie cs lo hi (spans ++ more) ↔ AllLie cs lo hi spans ∧ AllLie cs lo hi more := by
  simp [AllLie, or_imp, forall_and]

theorem AllLie.mono (h : AllLie cs lo hi spans) (hlo : lo' ≤ lo) (hhi : hi ≤ hi') :
    AllLie cs lo' hi' spans :=
  fun span hspan => (h span hspan).mono hlo hhi

end

/-! ## Tokens between two offsets -/

/-- The tokens follow one another between two offsets, each on boundaries of a text. -/
def Placed (cs : List Char) (lo hi : Nat) : List Token → Prop
  | [] => lo ≤ hi
  | token :: tokens => token.span.Lies cs lo token.span.stop ∧ Placed cs token.span.stop hi tokens

namespace Placed

variable {cs : List Char} {lo lo' hi hi' : Nat} {token : Token} {tokens : List Token}

theorem le (h : Placed cs lo hi tokens) : lo ≤ hi := by
  induction tokens generalizing lo with
  | nil => exact h
  | cons token tokens ih => exact h.1.le.trans (ih h.2)

theorem mono (h : Placed cs lo hi tokens) (hlo : lo' ≤ lo) (hhi : hi ≤ hi') :
    Placed cs lo' hi' tokens := by
  induction tokens generalizing lo lo' with
  | nil => exact hlo.trans (Nat.le_trans h hhi)
  | cons token tokens ih => exact ⟨h.1.mono hlo le_rfl, ih h.2 le_rfl⟩

theorem tail (h : Placed cs lo hi (token :: tokens)) : Placed cs lo hi tokens :=
  h.2.mono h.1.le le_rfl

/-- From the start of the first token to the end of the last one. -/
theorem lies (h : Placed cs lo hi (token :: tokens)) :
    Span.Lies cs lo hi ⟨token.span.start, lastStop (token :: tokens)⟩ := by
  induction tokens generalizing token lo with
  | nil => exact h.1.mono le_rfl h.2
  | cons next tokens ih =>
    have hcover := h.1.cover (ih h.2)
    rw [lastStop_cons_of_ne_nil token (List.cons_ne_nil next tokens)]
    exact hcover

theorem head_lies (h : Placed cs lo hi (token :: tokens)) : token.span.Lies cs lo hi :=
  h.1.mono le_rfl h.2.le

end Placed

/-- Tokens that stand in two parts: the second part follows the first. -/
theorem placed_append {cs : List Char} {lo hi : Nat} {tokens more : List Token} :
    Placed cs lo hi (tokens ++ more) ↔ ∃ mid, Placed cs lo mid tokens ∧ Placed cs mid hi more := by
  constructor
  · intro h
    induction tokens generalizing lo with
    | nil => exact ⟨lo, le_rfl, h⟩
    | cons token tokens ih =>
      obtain ⟨mid, hfirst, hsecond⟩ := ih h.2
      exact ⟨mid, ⟨h.1, hfirst⟩, hsecond⟩
  · rintro ⟨mid, hfirst, hsecond⟩
    induction tokens generalizing lo with
    | nil => exact hsecond.mono hfirst le_rfl
    | cons token tokens ih => exact ⟨hfirst.1, ih hfirst.2⟩

namespace Placed

variable {cs : List Char} {lo hi : Nat} {tokens more : List Token}

theorem left (h : Placed cs lo hi (tokens ++ more)) : Placed cs lo hi tokens := by
  obtain ⟨mid, hfirst, hsecond⟩ := placed_append.1 h
  exact hfirst.mono le_rfl hsecond.le

theorem right (h : Placed cs lo hi (tokens ++ more)) : Placed cs lo hi more := by
  obtain ⟨mid, hfirst, hsecond⟩ := placed_append.1 h
  exact hsecond.mono hfirst.le le_rfl

end Placed

theorem placed_piecesFrom (before cs : List Char) :
    Placed (before ++ cs) (byteLength before) (byteLength (before ++ cs))
      ((Scan.piecesFrom (byteLength before) cs).filterMap Scan.Piece.token?) := by
  generalize hoffset : byteLength before = offset
  induction offset, cs using Scan.piecesFrom.induct generalizing before with
  | case1 offset => simp [Scan.piecesFrom, Placed, ← hoffset]
  | case2 offset c cs hsep ih =>
    rw [Scan.piecesFrom, if_pos hsep]
    have hrest := ih (before ++ [c]) (by simp [byteLength, hoffset])
    rw [List.append_assoc] at hrest
    exact hrest.mono (Nat.le_add_right _ _) le_rfl
  | case3 offset c cs hsep kind more hlexeme taken stop ih =>
    rw [Scan.piecesFrom, if_neg hsep, hlexeme]
    have hcut : before ++ c :: cs = before ++ taken ++ cs.drop more := by simp [taken]
    have hrest := ih (before ++ taken) (by simp [stop, hoffset])
    rw [← hcut] at hrest
    have hstart : IsBoundary (before ++ c :: cs) offset := ⟨before, c :: cs, rfl, hoffset.symm⟩
    have hstop : IsBoundary (before ++ c :: cs) stop :=
      ⟨before ++ taken, cs.drop more, hcut, by simp [stop, hoffset]⟩
    cases kind with
    | none => exact hrest.mono (Nat.le_add_right _ _) le_rfl
    | some kind => exact ⟨⟨hstart, hstop, le_rfl, Nat.le_add_right _ _, le_rfl⟩, hrest⟩

/-- **The tokens of a source follow one another from its start to its end.** -/
theorem placed_tokensOf (source : String) :
    Placed source.toList 0 (endOf source) (tokensOf source) :=
  placed_piecesFrom [] source.toList

/-! ## The spans of a query -/

/-- The spans of a node and of all nodes below it. -/
def Expr.spans : Expr → List Span
  | .column name => [name.span]
  | .literal number => [number.span]
  | .comparison _ left right span => span :: (left.spans ++ right.spans)
  | .logical _ left right span => span :: (left.spans ++ right.spans)
  | .negation inner span => span :: inner.spans

theorem Expr.span_mem_spans (e : Expr) : e.span ∈ e.spans := by
  cases e <;> simp [span, spans]

/-- The spans of the clauses of a query. -/
def clauseSpans (columns : List Name) (target : TargetName) (condition : Option Expr)
    (sleep speed : Option Literal) : List Span :=
  columns.map Name.span ++ target.span :: (condition.elim [] Expr.spans
    ++ (sleep.elim [] (fun literal => [literal.span])
      ++ speed.elim [] (fun literal => [literal.span])))

/-- The spans of a query and of all its parts. -/
def Query.spans (query : Query) : List Span :=
  query.span :: clauseSpans query.columns query.target query.condition query.sleep query.speed

/-- The spans of the clauses of a draft. -/
def Draft.spans (draft : Draft) : List Span :=
  clauseSpans draft.columns draft.target draft.condition draft.sleep draft.speed

/-- The spans of the operands that wait on a parenthesis level. -/
def Pending.spans (pending : Pending) : List Span :=
  pending.disjunct.elim [] Expr.spans ++ pending.conjunct.elim [] Expr.spans

/-- The spans of a place inside a condition. After a complete conjunct the disjunction that it ends
is counted as built. -/
def Place.spans : Place → List Span
  | .predicate pending => pending.spans
  | .leftNumber pending _ => pending.spans
  | .operator pending left => pending.spans ++ left.spans
  | .rightOperand pending left _ => pending.spans ++ left.spans
  | .rightNumber pending left _ _ => pending.spans ++ left.spans
  | .ended disjunct value => (Expr.joinOptional .or disjunct value).spans

/-- The spans of the open parentheses and of what stands to their left. -/
def parenSpans (parens : List Paren) : List Span :=
  parens.flatMap fun paren => paren.span :: paren.outer.spans

/-- All spans that a stage holds. -/
def Stage.spans : Stage → List Span
  | .select => []
  | .column _ columns => columns.map Name.span
  | .columnEnd _ columns => columns.map Name.span
  | .target _ columns => columns.map Name.span
  | .clauses draft => draft.spans
  | .condition draft parens place => draft.spans ++ (parenSpans parens ++ place.spans)
  | .sleep draft _ => draft.spans
  | .speed draft _ => draft.spans
  | .closed draft => draft.spans

/-! ## Phrases lie where their tokens do -/

theorem Token.span_of_name? {token : Token} {name : Name} (h : token.name? = some name) :
    name.span = token.span := by
  unfold Token.name? at h
  split at h <;> cases h <;> rfl

section

variable {cs : List Char} {lo hi : Nat} {tokens : List Token}

theorem SpellsNumber.lies {literal : Literal} (h : SpellsNumber tokens literal)
    (hplaced : Placed cs lo hi tokens) : literal.span.Lies cs lo hi := by
  cases h with
  | unsigned => exact hplaced.lies
  | plus => exact hplaced.lies
  | minus => exact hplaced.lies

theorem SpellsOperand.lies {e : Expr} (h : SpellsOperand tokens e)
    (hplaced : Placed cs lo hi tokens) : AllLie cs lo hi e.spans := by
  cases h with
  | name hname =>
    rw [Expr.spans, Token.span_of_name? hname]
    exact allLie_singleton.2 hplaced.head_lies
  | number h => exact allLie_singleton.2 (h.lies hplaced)

/-- A node with two operands, the right one to the right of the left one. -/
theorem lies_binary {left right : Expr} {mid : Nat} (hleft : AllLie cs lo mid left.spans)
    (hright : AllLie cs mid hi right.spans) :
    AllLie cs lo hi (left.span.cover right.span :: (left.spans ++ right.spans)) := by
  have hleft' := hleft _ left.span_mem_spans
  have hright' := hright _ right.span_mem_spans
  refine allLie_cons.2 ⟨hleft'.cover hright', allLie_append.2 ⟨?_, ?_⟩⟩
  · exact hleft.mono le_rfl hright'.le
  · exact hright.mono hleft'.le le_rfl

/-- The spans of a condition lie where its tokens do. -/
theorem Spells.lies {level : Level} {e : Expr} (h : Spells level tokens e)
    (hplaced : Placed cs lo hi tokens) : AllLie cs lo hi e.spans := by
  induction h generalizing lo hi with
  | conjunction _ ih => exact ih hplaced
  | factor _ ih => exact ih hplaced
  | or _ _ _ ihleft ihright =>
    obtain ⟨mid, hlefts, hrights⟩ := placed_append.1 hplaced
    exact lies_binary (ihleft hlefts) (ihright hrights.tail)
  | and _ _ _ ihleft ihright =>
    obtain ⟨mid, hlefts, hrights⟩ := placed_append.1 hplaced
    exact lies_binary (ihleft hlefts) (ihright hrights.tail)
  | comparison hleft _ hright =>
    obtain ⟨mid, hlefts, hrights⟩ := placed_append.1 hplaced
    exact lies_binary (hleft.lies hlefts) (hright.lies hrights.tail)
  | @not token tokens e _ h ih =>
    refine allLie_cons.2 ⟨?_, ih hplaced.tail⟩
    rw [← lastStop_cons_of_ne_nil token h.ne_nil]
    exact hplaced.lies
  | paren _ _ _ ih => exact ih hplaced.tail.left

theorem SpellsColumns.lies {names : List Name} (h : SpellsColumns tokens names)
    (hplaced : Placed cs lo hi tokens) : AllLie cs lo hi (names.map Name.span) := by
  induction h with
  | one hname =>
    rw [List.map_singleton, Token.span_of_name? hname]
    exact allLie_singleton.2 hplaced.head_lies
  | more _ _ hname ih =>
    rw [List.map_append, List.map_singleton, Token.span_of_name? hname]
    exact allLie_append.2 ⟨ih hplaced.left, allLie_singleton.2 hplaced.right.tail.head_lies⟩

theorem SpellsCondition.lies {condition : Option Expr} (h : SpellsCondition tokens condition)
    (hplaced : Placed cs lo hi tokens) : AllLie cs lo hi (condition.elim [] Expr.spans) := by
  cases h with
  | absent => exact allLie_nil
  | present _ h => exact h.lies hplaced.tail

theorem SpellsSetting.lies {keyword : Keyword} {setting : Option Literal}
    (h : SpellsSetting keyword tokens setting) (hplaced : Placed cs lo hi tokens) :
    AllLie cs lo hi (setting.elim [] fun literal => [literal.span]) := by
  cases h with
  | absent => exact allLie_nil
  | present _ h => exact allLie_singleton.2 (h.lies hplaced.tail)

/-- The spans of some clauses lie where their tokens do. -/
theorem SpellsDraft.lies {draft : Draft} (h : SpellsDraft tokens draft)
    (hplaced : Placed cs lo hi tokens) : AllLie cs lo hi draft.spans := by
  cases h with
  | clauses _ hcolumns _ htarget hcondition hsleep hspeed =>
    have hafterSelect := hplaced.tail
    have hafterFrom := hafterSelect.right.tail
    have hafterTarget := hafterFrom.tail
    simp only [Draft.spans, clauseSpans, allLie_append, allLie_cons]
    refine ⟨hcolumns.lies hafterSelect.left, ?_, hcondition.lies hafterTarget.left,
      hsleep.lies hafterTarget.right.left, hspeed.lies hafterTarget.right.right⟩
    rw [Token.span_of_name? htarget]
    exact hafterFrom.head_lies

/-! ## Stages lie where the tokens read so far do -/

theorem SpellsLeft.lies {level : Level} {keyword : Keyword} {left : Option Expr}
    (h : SpellsLeft level keyword tokens left) (hplaced : Placed cs lo hi tokens) :
    AllLie cs lo hi (left.elim [] Expr.spans) := by
  cases h with
  | absent => exact allLie_nil
  | present h => exact h.lies hplaced.left

theorem SpellsPending.lies {pending : Pending} (h : SpellsPending tokens pending)
    (hplaced : Placed cs lo hi tokens) : AllLie cs lo hi pending.spans := by
  cases h with
  | pending hdisjunct hconjunct _ =>
    have hlefts := hplaced.left
    exact allLie_append.2 ⟨hdisjunct.lies hlefts.left, hconjunct.lies hlefts.right⟩

theorem SpellsParens.lies {parens : List Paren} (h : SpellsParens tokens parens)
    (hplaced : Placed cs lo hi tokens) : AllLie cs lo hi (parenSpans parens) := by
  induction h with
  | nil => exact allLie_nil
  | cons _ h _ hspan ih =>
    have hbefore := hplaced.left
    rw [parenSpans, List.flatMap_cons, allLie_append, allLie_cons, ← hspan]
    exact ⟨⟨hplaced.right.head_lies, h.lies hbefore.right⟩, ih hbefore.left⟩

theorem SpellsPlace.lies {place : Place} (h : SpellsPlace tokens place)
    (hplaced : Placed cs lo hi tokens) : AllLie cs lo hi place.spans := by
  cases h with
  | predicate h => exact h.lies hplaced
  | leftNumber h => exact h.lies hplaced.left
  | operator h hleft => exact allLie_append.2 ⟨h.lies hplaced.left, hleft.lies hplaced.right⟩
  | rightOperand h hleft =>
    have hbefore := hplaced.left
    exact allLie_append.2 ⟨h.lies hbefore.left, hleft.lies hbefore.right⟩
  | rightNumber h hleft =>
    have hbefore := hplaced.left
    exact allLie_append.2 ⟨h.lies hbefore.left, hleft.lies hbefore.right⟩
  | ended hdisjunct h => exact (hdisjunct.joinOr h).lies hplaced

/-- **The spans of a stage lie where the tokens read so far do.** -/
theorem SpellsStage.lies {stage : Stage} (h : SpellsStage tokens stage)
    (hplaced : Placed cs lo hi tokens) : AllLie cs lo hi stage.spans := by
  cases h with
  | select => exact allLie_nil
  | firstColumn => exact allLie_nil
  | nextColumn _ hcolumns => exact hcolumns.lies hplaced.tail.left
  | columnEnd _ hcolumns => exact hcolumns.lies hplaced.tail
  | target _ hcolumns => exact hcolumns.lies hplaced.tail.left
  | clauses h => exact h.lies hplaced
  | condition h _ _ _ _ hinside =>
    obtain ⟨outers, inners, rfl, houter, hplace⟩ := hinside
    have hafterWhere := hplaced.right.tail
    simp only [Stage.spans, allLie_append]
    exact ⟨h.lies hplaced.left, houter.lies hafterWhere.left, hplace.lies hafterWhere.right⟩
  | sleep h => exact h.lies hplaced.left
  | speed h => exact h.lies hplaced.left
  | closed h => exact h.lies hplaced.left

/-- **The spans of a query lie where its tokens do.** -/
theorem SpellsQuery.lies {query : Query} (h : SpellsQuery tokens query)
    (hplaced : Placed cs lo hi tokens) : AllLie cs lo hi query.spans := by
  cases h with
  | query hdraft =>
    have hbody := hplaced.left
    refine allLie_cons.2 ⟨?_, hdraft.lies hbody.left⟩
    cases hdraft with
    | clauses => exact hbody.lies

end

/-! ## The spans of a source -/

section

variable {source : String} {token : Token} {stage : Stage} {error : SyntaxError}

theorem placed_scan (source : String) : Placed source.toList 0 (endOf source) (scan source) := by
  refine placed_append.2 ⟨endOf source, placed_tokensOf source, ?_, le_rfl⟩
  have hend : IsBoundary source.toList (endOf source) := ⟨source.toList, [], by simp, rfl⟩
  exact ⟨hend, hend, le_rfl, le_rfl, le_rfl⟩

/-- **Every stage that the reader reaches in a source holds spans of the source only.** -/
theorem Reaches.lies {before rest : List Token} (h : Reaches .select before stage)
    (hscan : scan source = before ++ rest) :
    AllLie source.toList 0 (endOf source) stage.spans := by
  have hplaced := placed_scan source
  rw [hscan] at hplaced
  exact (SpellsStage.select.run h).lies hplaced.left

/-- **A query holds spans of its source only.** -/
theorem lies_of_parse {query : Query} (h : Query.parse source = .ok query) :
    AllLie source.toList 0 (endOf source) query.spans :=
  (parse_eq_ok_iff.1 h).2.lies (placed_scan source)

/-- A refused token is shown itself, or a parenthesis that is open at the stage is. -/
theorem Stage.shownSpan_refuse (stage : Stage) (token : Token) :
    (stage.refuse token).shownSpan = token.span ∨ (stage.refuse token).shownSpan ∈ stage.spans := by
  have hunexpected : (stage.unexpected token).shownSpan = token.span := by
    unfold unexpected
    split <;> rfl
  unfold refuse
  split
  next => exact .inl hunexpected
  next => exact .inl hunexpected
  next => exact .inl rfl
  next =>
    right
    simp [SyntaxError.shownSpan, spans, parenSpans]
  next => exact .inl hunexpected

theorem Stage.shownSpan_of_step (h : stage.step token = .error error) :
    error.shownSpan = token.span ∨ error.shownSpan ∈ stage.spans := by
  unfold step at h
  split at h
  next hnext =>
    rw [h] at hnext
    rw [eq_invalidNumber_of_next? hnext]
    exact .inl rfl
  next =>
    cases h
    exact stage.shownSpan_refuse token

/-- **A syntax error is shown at a span of its source.** -/
theorem shownSpan_lies_of_parse (h : Query.parse source = .error error) :
    error.shownSpan.Lies source.toList 0 (endOf source) := by
  unfold Query.parse at h
  split at h
  next span faults hfaults =>
    cases h
    have hmem : span ∈ faultsOf source := by simp [hfaults]
    obtain ⟨piece, hpiece, hspan⟩ := List.mem_filterMap.1 hmem
    have hslice := Scan.slice?_of_mem_pieces hpiece
    rw [Scan.Piece.span_eq_of_fault? hspan] at hslice
    exact .of_slice? hslice
  next =>
    obtain ⟨before, token, after, stage, hscan, hreaches, hstep, -⟩ := exists_refused h
    rcases Stage.shownSpan_of_step hstep with hspan | hmem
    · have hmem : token ∈ scan source := by
        rw [scan, hscan]
        simp
      rw [hspan]
      exact .of_slice? (slice?_of_mem_scan hmem)
    · exact hreaches.lies hscan _ hmem

end

end PinQuery
