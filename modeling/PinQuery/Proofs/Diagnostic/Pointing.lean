import PinQuery.Proofs.Checked

/-!
# What an error points at

The text under the span of an error has one of three shapes.

* `IsSolid` texts begin and end with a character that is not blank, and stand on one line. Every
  token is one (`isSolid_of_mem_tokensOf`).
* `Stage.ShowsAt` and `SemanticError.PointsInto`: where the reader and the analysis put their
  errors.
* `CompileError.IsShownAt`: an error is shown at a text on one line that is not empty, at the end of
  the source, or, if it is an unsupported expression, from one token to a later one, which may stand
  on another line.
* `exists_isShownAt_of_compile`: so is every error of every source.
-/

namespace PinQuery

open Text

/-! ## Solid texts -/

namespace Text

/-- A text on one line that has no blanks at its ends and is not empty. -/
structure IsSolid (text : List Char) : Prop where
  head : ∃ c rest, text = c :: rest ∧ isBlank c = false
  last : ∃ front c, text = front ++ [c] ∧ isBlank c = false
  not_mem : '\n' ∉ text

theorem IsSolid.ne_nil {text : List Char} (h : IsSolid text) : text ≠ [] := by
  obtain ⟨c, rest, rfl, -⟩ := h.head
  exact List.cons_ne_nil c rest

theorem isSolid_of_forall {text : List Char} (hne : text ≠ [])
    (h : ∀ c ∈ text, isBlank c = false) : IsSolid text where
  head := by
    obtain ⟨c, rest, rfl⟩ := List.exists_cons_of_ne_nil hne
    exact ⟨c, rest, rfl, h c (by simp)⟩
  last := ⟨text.dropLast, text.getLast hne, (List.dropLast_append_getLast hne).symm,
    h _ (List.getLast_mem hne)⟩
  not_mem := fun hmem => absurd (h '\n' hmem) (by decide)

/-- Nothing is cut off a text between two solid ones. -/
theorem trim_of_isSolid {first between last : List Char} (hfirst : IsSolid first)
    (hlast : IsSolid last) :
    trim (first ++ between ++ last) = first ++ between ++ last := by
  obtain ⟨c, rest, rfl, hc⟩ := hfirst.head
  obtain ⟨front, d, rfl, hd⟩ := hlast.last
  have hstart : trimStart (c :: rest ++ between ++ (front ++ [d])) =
      c :: rest ++ between ++ (front ++ [d]) := by
    simp [trimStart, hc]
  rw [trim, hstart, ← List.append_assoc, trimEnd, List.reverse_append, List.reverse_singleton,
    List.singleton_append, List.dropWhile_cons_of_neg (by simp [hd]), List.reverse_cons,
    List.reverse_reverse]

end Text

namespace Scan

theorem isBlank_eq_false_of_isWordPart {c : Char} (h : isWordPart c = true) :
    isBlank c = false := by
  have hranges : (65 ≤ c.toNat ∧ c.toNat ≤ 90 ∨ 97 ≤ c.toNat ∧ c.toNat ≤ 122) ∨
      48 ≤ c.toNat ∧ c.toNat ≤ 57 ∨ c.toNat = 95 := by
    delta isWordPart Char.isAlphanum Char.isAlpha Char.isUpper Char.isLower Char.isDigit at h
    simp only [Bool.or_eq_true, Bool.and_eq_true, decide_eq_true_eq, beq_iff_eq, ge_iff_le,
      UInt32.le_iff_toNat_le, or_assoc] at h ⊢
    rcases h with h | h | h | rfl
    · exact .inl h
    · exact .inr (.inl h)
    · exact .inr (.inr (.inl h))
    · exact .inr (.inr (.inr rfl))
  simp only [isBlank, blankRanges, List.any_cons, List.any_nil, Bool.or_eq_false_iff,
    Bool.and_eq_false_iff, decide_eq_false_iff_not, and_true]
  omega

theorem isBlank_eq_false_of_isDigit {c : Char} (h : c.isDigit = true) : isBlank c = false :=
  isBlank_eq_false_of_isWordPart (by simp [isWordPart, Char.isAlphanum, h])

theorem isBlank_eq_false_of_mem_numeral (n : Numeral) : ∀ c ∈ n.text, isBlank c = false := by
  have hdigits {digits : List Char} (h : ∀ c ∈ digits, c.isDigit) :
      ∀ c ∈ digits, isBlank c = false := fun c hc => isBlank_eq_false_of_isDigit (h c hc)
  have hfraction : ∀ c ∈ pointed n.fraction, isBlank c = false := by
    cases hcases : n.fraction with
    | nil => simp [pointed]
    | cons digit digits =>
      have := hdigits n.fraction_digits
      rw [hcases] at this
      exact List.forall_mem_cons.2 ⟨by decide, this⟩
  have hexponent : ∀ c ∈ n.exponent, isBlank c = false := by
    have hform := n.exponent_form
    generalize n.exponent = exponent at hform
    cases hform with
    | none => simp
    | unsigned hmark _ h =>
      refine List.forall_mem_cons.2 ⟨?_, hdigits h⟩
      rcases hmark with rfl | rfl <;> decide
    | signed hmark hsign _ h =>
      refine List.forall_mem_cons.2 ⟨?_, List.forall_mem_cons.2 ⟨?_, hdigits h⟩⟩
      · rcases hmark with rfl | rfl <;> decide
      · rcases hsign with rfl | rfl <;> decide
  simp only [Numeral.text, List.forall_mem_append]
  exact ⟨hdigits n.whole_digits, hfraction, hexponent⟩

theorem isBlank_eq_false_of_symbol? {c : Char} {cs : List Char} {kind : Kind} {more : Nat}
    (h : symbol? c cs = some (kind, more)) : ∀ d ∈ c :: cs.take more, isBlank d = false := by
  unfold symbol? at h
  split at h <;> cases h <;> simp <;> decide

/-- **Every token is a solid text.** -/
theorem IsLexeme.isSolid {kind : Kind} {text : List Char} (h : IsLexeme kind text) :
    IsSolid text := by
  cases h with
  | @word c tail hc htail =>
    refine isSolid_of_forall (List.cons_ne_nil c tail) (List.forall_mem_cons.2 ⟨?_, fun d hd => ?_⟩)
    · exact isBlank_eq_false_of_isWordPart (isWordPart_of_isWordStart hc)
    · exact isBlank_eq_false_of_isWordPart (htail d hd)
  | numeral n =>
    refine isSolid_of_forall ?_ (isBlank_eq_false_of_mem_numeral n)
    exact List.append_ne_nil_of_left_ne_nil n.whole_ne_nil _
  | @quotedName inside hinside =>
    refine ⟨⟨'\x60', inside ++ ['\x60'], rfl, by decide⟩,
      ⟨'\x60' :: inside, '\x60', rfl, by decide⟩, ?_⟩
    intro hmem
    have hfeed : '\n' ∈ inside := by simpa using hmem
    exact absurd (hinside '\n' hfeed) (by decide)
  | @symbol c tail kind hsymbol =>
    have hall := isBlank_eq_false_of_symbol? (hsymbol [] (by simp [EndsWord]))
    rw [List.append_nil, List.take_length] at hall
    exact isSolid_of_forall (List.cons_ne_nil c tail) hall

/-- No piece goes over the end of a line. -/
theorem newline_not_mem_taken {c : Char} {cs : List Char} {kind : Option Kind} {more : Nat}
    (hsep : isSeparator c = false) (h : lexeme c cs = (kind, more)) : '\n' ∉ c :: cs.take more := by
  cases kind with
  | some kind => exact (isLexeme_of_lexeme h).isSolid.not_mem
  | none =>
    have hc : '\n' ≠ c := by
      rintro rfl
      exact absurd hsep (by decide)
    rw [List.mem_cons, not_or]
    refine ⟨hc, fun hmem => ?_⟩
    have hmore : more = (cs.takeWhile isQuotable).length ∨ more = 0 := by
      unfold lexeme at h
      grind
    rcases hmore with rfl | rfl
    · rw [← List.prefix_iff_eq_take.1 (List.takeWhile_prefix _)] at hmem
      exact absurd (List.mem_takeWhile_imp hmem) (by decide)
    · cases hmem

theorem newline_not_mem_of_mem_piecesFrom (offset : Nat) (cs : List Char) :
    ∀ piece ∈ piecesFrom offset cs, '\n' ∉ piece.text.toList := by
  induction offset, cs using piecesFrom.induct with
  | case1 => simp [piecesFrom]
  | case2 offset c cs hsep ih =>
    rw [piecesFrom, if_pos hsep]
    exact ih
  | case3 offset c cs hsep kind more hlexeme taken stop ih =>
    rw [piecesFrom, if_neg hsep, hlexeme]
    refine List.forall_mem_cons.2 ⟨?_, ih⟩
    rw [String.toList_ofList]
    exact newline_not_mem_taken (by simpa using hsep) hlexeme

theorem ne_nil_of_mem_pieces {source : String} {piece : Piece} (h : piece ∈ pieces source) :
    piece.text.toList ≠ [] := by
  have hlt := start_lt_stop_of_mem_piecesFrom 0 source.toList piece h
  obtain ⟨before, after, -, hspan⟩ := exists_append_of_mem_piecesFrom 0 source.toList piece h
  intro hnil
  rw [hspan, hnil] at hlt
  exact absurd hlt (Nat.lt_irrefl _)

end Scan

theorem isSolid_of_mem_tokensOf {source : String} {token : Token} (h : token ∈ tokensOf source) :
    IsSolid token.text.toList :=
  (isLexeme_of_mem_tokensOf h).isSolid

theorem mem_tokensOf_of_mem_scan {source : String} {token : Token} (h : token ∈ scan source)
    (hkind : token.kind ≠ .endOfQuery) : token ∈ tokensOf source := by
  rcases List.mem_append.1 h with h | h
  · exact h
  · cases List.mem_singleton.1 h
    exact absurd rfl hkind

theorem eq_endAt_of_mem_scan {source : String} {token : Token} (h : token ∈ scan source)
    (hkind : token.kind = .endOfQuery) : token = .endAt (endOf source) := by
  rcases List.mem_append.1 h with h | h
  · exact absurd hkind (isLexeme_of_mem_tokensOf h).ne_endOfQuery
  · exact List.mem_singleton.1 h

/-- The tokens of a source stand apart from one another. -/
theorem pairwise_tokensOf (source : String) :
    (tokensOf source).Pairwise fun token other => token.span.stop ≤ other.span.start := by
  refine (Scan.pairwise_disjoint_piecesFrom 0 source.toList).filterMap _ fun piece other hle => ?_
  intro token htoken token' htoken'
  obtain ⟨kind, -, rfl⟩ := Option.map_eq_some_iff.1 htoken
  obtain ⟨kind', -, rfl⟩ := Option.map_eq_some_iff.1 htoken'
  exact hle

/-! ## Syntax errors -/

section

variable {tokens : List Token} {token : Token} {stage : Stage} {error : SyntaxError}

theorem SpellsParens.exists_mem {parens : List Paren} {paren : Paren}
    (h : SpellsParens tokens parens) (hparen : paren ∈ parens) :
    ∃ token ∈ tokens, token.kind = .leftParen ∧ token.span = paren.span := by
  induction h with
  | nil => cases hparen
  | @cons _ _ token _ _ _ _ hkind hspan ih =>
    rcases List.mem_cons.1 hparen with rfl | hparen
    · exact ⟨token, by simp, hkind, hspan⟩
    · obtain ⟨token, hmem, h⟩ := ih hparen
      exact ⟨token, by simp [hmem], h⟩

/-- The parentheses that are open at a stage are among the tokens read so far. -/
theorem SpellsStage.exists_mem_of_parens {paren : Paren} (h : SpellsStage tokens stage)
    (hparen : paren ∈ stage.parens) :
    ∃ token ∈ tokens, token.kind = .leftParen ∧ token.span = paren.span := by
  cases h with
  | condition _ _ _ _ _ hplace =>
    obtain ⟨outers, inners, rfl, houter, -⟩ := hplace
    obtain ⟨token, hmem, h⟩ := houter.exists_mem hparen
    exact ⟨token, by simp [hmem], h⟩
  | _ => cases hparen

/-- Where the error of a token that cannot stand at a stage is shown: at the token, at the end of a
query that is not complete, or at an open parenthesis. -/
inductive Stage.ShowsAt (stage : Stage) (token : Token) : SyntaxError → Prop
  | token {error : SyntaxError} (hkind : token.kind ≠ .endOfQuery)
      (hspan : error.shownSpan = token.span) : stage.ShowsAt token error
  | ending (expected : String) (hkind : token.kind = .endOfQuery) :
      stage.ShowsAt token ⟨.unexpectedEnd expected, token.span⟩
  | paren {error : SyntaxError} {paren : Paren} (hparen : paren ∈ stage.parens)
      (hspan : error.shownSpan = paren.span) : stage.ShowsAt token error

theorem Stage.showsAt_refuse (stage : Stage) (token : Token) :
    stage.ShowsAt token (stage.refuse token) := by
  have hunexpected : stage.ShowsAt token (stage.unexpected token) := by
    unfold unexpected
    split
    next hkind => exact .ending _ hkind
    next hkind _ => exact .token (by simp [hkind]) rfl
    next hkind _ => exact .token hkind rfl
  unfold refuse
  split
  next => exact hunexpected
  next => exact hunexpected
  next hkind _ => exact .token hkind rfl
  next paren _ _ _ _ => exact .paren (List.mem_cons_self (a := paren)) rfl
  next => exact hunexpected

theorem Stage.showsAt_of_step (h : stage.step token = .error error) :
    stage.ShowsAt token error := by
  unfold step at h
  split at h
  next result hnext =>
    have hkind : token.kind ≠ .endOfQuery := fun hkind => by
      rw [stage.next?_of_endOfQuery hkind] at hnext
      cases hnext
    rw [h] at hnext
    rw [eq_invalidNumber_of_next? hnext]
    exact .token hkind rfl
  next =>
    cases h
    exact stage.showsAt_refuse token

end

/-! ## Semantic errors -/

/-- An error that points at some of the tokens: at one of them, or, if an expression is not
supported, from one of them to a later one. -/
def SemanticError.PointsInto (tokens : List Token) : SemanticError → Prop
  | .unknownColumn _ span => ∃ token ∈ tokens, token.span = span
  | .unknownTarget _ span _ => ∃ token ∈ tokens, token.span = span
  | .unsupported _ span =>
    ∃ first last, [first, last].Sublist tokens ∧ first.span.cover last.span = span

section

variable {tokens more : List Token} {error : SemanticError}

theorem SemanticError.PointsInto.mono (h : error.PointsInto tokens) (hmore : tokens.Sublist more) :
    error.PointsInto more := by
  cases error with
  | unknownColumn | unknownTarget =>
    obtain ⟨token, hmem, hspan⟩ := h
    exact ⟨token, hmore.subset hmem, hspan⟩
  | unsupported =>
    obtain ⟨first, last, hpair, hspan⟩ := h
    exact ⟨first, last, hpair.trans hmore, hspan⟩

theorem Name.pointsInto {token : Token} {name : Name} (hname : token.name? = some name)
    (h : error ∈ name.offences) : error.PointsInto [token] := by
  unfold Name.offences at h
  split at h
  next => cases h
  next =>
    cases List.mem_singleton.1 h
    exact ⟨token, by simp, (Token.span_of_name? hname).symm⟩

theorem SpellsOperand.pointsInto {e : Expr} (h : SpellsOperand tokens e)
    (herror : error ∈ e.operandOffences) : error.PointsInto tokens := by
  cases h with
  | name hname => exact Name.pointsInto hname herror
  | number => cases herror

theorem SpellsOperand.isLeaf {e : Expr} (h : SpellsOperand tokens e) : e.isLeaf = true := by
  cases h <;> rfl

theorem lastStop_of_ne_nil (h : tokens ≠ []) :
    ∃ last ∈ tokens, lastStop tokens = last.span.stop := by
  refine ⟨tokens.getLast h, List.getLast_mem h, ?_⟩
  conv_lhs => rw [← List.dropLast_append_getLast h]
  exact lastStop_append_singleton _ _

/-- A condition that is neither a comparison nor a connective is a negation. It begins with its
`NOT` and ends with a later token. -/
theorem Spells.exists_cover {level : Level} {e : Expr} (h : Spells level tokens e)
    (hbinary : e.isBinary = false) :
    ∃ first last, [first, last].Sublist tokens ∧ first.span.cover last.span = e.span := by
  induction h with
  | conjunction _ ih => exact ih hbinary
  | factor _ ih => exact ih hbinary
  | or | and | comparison => cases hbinary
  | @not token tokens e _ h =>
    obtain ⟨last, hmem, hstop⟩ := lastStop_of_ne_nil h.ne_nil
    refine ⟨token, last, .cons_cons token (List.singleton_sublist.2 hmem), ?_⟩
    rw [Expr.span, hstop]
    rfl
  | paren _ _ _ ih =>
    obtain ⟨first, last, hpair, hspan⟩ := ih hbinary
    exact ⟨first, last, hpair.trans ((List.sublist_append_left _ _).cons _), hspan⟩

/-- What is wrong with a condition points into its tokens. -/
theorem Spells.pointsInto {level : Level} {e : Expr} (h : Spells level tokens e)
    (herror : error ∈ e.offences) : error.PointsInto tokens := by
  induction h with
  | conjunction _ ih => exact ih herror
  | factor _ ih => exact ih herror
  | or _ _ _ ihleft ihright | and _ _ _ ihleft ihright =>
    rcases List.mem_append.1 herror with herror | herror
    · exact (ihleft herror).mono (List.sublist_append_left _ _)
    · exact (ihright herror).mono
        ((List.sublist_cons_self _ _).trans (List.sublist_append_right _ _))
  | comparison hleft _ hright =>
    rw [Expr.offences, if_pos ⟨hleft.isLeaf, hright.isLeaf⟩] at herror
    rcases List.mem_append.1 herror with herror | herror
    · exact (hleft.pointsInto herror).mono (List.sublist_append_left _ _)
    · exact (hright.pointsInto herror).mono
        ((List.sublist_cons_self _ _).trans (List.sublist_append_right _ _))
  | @not token tokens e _ h ih =>
    have hpoints : error.PointsInto tokens := by
      rw [Expr.offences] at herror
      split at herror
      next => exact ih herror
      next hbinary =>
        cases List.mem_singleton.1 herror
        exact h.exists_cover (by simpa using hbinary)
    exact hpoints.mono (List.sublist_cons_self _ _)
  | paren _ _ _ ih => exact (ih herror).mono ((List.sublist_append_left _ _).cons _)

theorem SpellsColumns.pointsInto {names : List Name} (h : SpellsColumns tokens names)
    (herror : error ∈ names.flatMap Name.offences) : error.PointsInto tokens := by
  induction h with
  | one hname =>
    rw [List.flatMap_singleton] at herror
    exact Name.pointsInto hname herror
  | more _ _ hname ih =>
    rw [List.flatMap_append, List.flatMap_singleton, List.mem_append] at herror
    rcases herror with herror | herror
    · exact (ih herror).mono (List.sublist_append_left _ _)
    · exact (Name.pointsInto hname herror).mono
        ((List.sublist_cons_self _ _).trans (List.sublist_append_right _ _))

/-- What is wrong with a query points into its tokens before the end. -/
theorem SpellsDraft.pointsInto {draft : Draft} {stop : Nat} {vocabulary : List String}
    (h : SpellsDraft tokens draft) (herror : error ∈ (draft.query stop).offences vocabulary) :
    error.PointsInto tokens := by
  cases h with
  | @clauses select from_ target columns conditions sleeps speeds names name _ _ _ _ hcolumns _
      htarget hcondition _ _ =>
    simp only [Query.offences, List.mem_append] at herror
    rcases herror with (herror | herror) | herror
    · exact (hcolumns.pointsInto herror).mono ((List.sublist_append_left _ _).cons _)
    · unfold TargetName.offences at herror
      split at herror
      next => cases herror
      next =>
        cases List.mem_singleton.1 herror
        exact ⟨target, by simp, (Token.span_of_name? htarget).symm⟩
    · cases hcondition with
      | absent => cases herror
      | @present token tokens _ _ h =>
        refine (h.pointsInto herror).mono ?_
        calc tokens.Sublist (token :: tokens ++ (sleeps ++ speeds)) :=
              (List.sublist_append_left _ _).cons _
          List.Sublist _ (columns ++ from_ :: target :: (token :: tokens ++ (sleeps ++ speeds))) :=
              (((List.Sublist.refl _).cons _).cons _).trans (List.sublist_append_right _ _)
          List.Sublist _ _ := List.sublist_cons_self _ _

end

/-! ## All errors -/

/-- What stands at the span where an error is shown. -/
inductive CompileError.IsShownAt (source : String) (span : Span) : CompileError → Prop
  /-- A text on one line that is not empty. -/
  | stretch {error : CompileError} {text : List Char}
      (hslice : slice? span source.toList = some text) (hne : text ≠ []) (hline : '\n' ∉ text) :
      error.IsShownAt source span
  /-- The end of the source, for a query that is not complete. -/
  | ending (expected : String) (hspan : span = .empty (endOf source)) :
      (CompileError.reading ⟨.unexpectedEnd expected, span⟩).IsShownAt source span
  /-- Everything from one token to a later one, for an unsupported expression. -/
  | phrase (name : String) {first between last : List Char}
      (hslice : slice? span source.toList = some (first ++ between ++ last))
      (hfirst : IsSolid first) (hlast : IsSolid last) :
      (CompileError.planning (.unsupported name span)).IsShownAt source span

section

variable {source : String} {span : Span}

theorem exists_piece_of_mem_tokensOf {token : Token} (h : token ∈ tokensOf source) :
    ∃ piece ∈ Scan.pieces source, piece.span = token.span := by
  obtain ⟨piece, hpiece, htoken⟩ := List.mem_filterMap.1 h
  obtain ⟨kind, -, rfl⟩ := Option.map_eq_some_iff.1 htoken
  exact ⟨piece, hpiece, rfl⟩

/-- **A syntax error is shown at a piece of its source**, or, if the query is not complete, at the
end of the source. -/
theorem exists_piece_of_parse {error : SyntaxError} (h : Query.parse source = .error error) :
    (∃ piece ∈ Scan.pieces source, piece.span = error.shownSpan) ∨
      ∃ expected, error = ⟨.unexpectedEnd expected, .empty (endOf source)⟩ := by
  unfold Query.parse at h
  split at h
  next span faults hfaults =>
    cases h
    have hmem : span ∈ faultsOf source := by simp [hfaults]
    obtain ⟨piece, hpiece, hspan⟩ := List.mem_filterMap.1 hmem
    exact .inl ⟨piece, hpiece, Scan.Piece.span_eq_of_fault? hspan⟩
  next =>
    obtain ⟨before, token, after, stage, hscan, hreaches, hstep, -⟩ := exists_refused h
    have hmem : ∀ other ∈ before ++ [token], other ∈ scan source := by
      intro other hother
      rw [scan, hscan, List.append_cons]
      exact List.mem_append_left after hother
    cases Stage.showsAt_of_step hstep with
    | token hkind hspan =>
      rw [hspan]
      exact .inl (exists_piece_of_mem_tokensOf
        (mem_tokensOf_of_mem_scan (hmem token (by simp)) hkind))
    | ending expected hkind =>
      right
      refine ⟨expected, ?_⟩
      rw [eq_endAt_of_mem_scan (hmem token (by simp)) hkind]
      rfl
    | paren hparen hspan =>
      obtain ⟨opening, hopening, hkind, hspan'⟩ :=
        (SpellsStage.select.run hreaches).exists_mem_of_parens hparen
      rw [hspan, ← hspan']
      have hopening' := hmem opening (List.mem_append_left _ hopening)
      exact .inl (exists_piece_of_mem_tokensOf
        (mem_tokensOf_of_mem_scan hopening' (by simp [hkind])))

/-- **A semantic error points into the tokens of its source.** -/
theorem pointsInto_of_ofQuery {known : OrderedSet String} {query : Query} {error : SemanticError}
    (hparse : Query.parse source = .ok query) (hplan : Plan.ofQuery known query = .error error) :
    error.PointsInto (tokensOf source) := by
  obtain ⟨-, hspells⟩ := parse_eq_ok_iff.1 hparse
  generalize hscan : scan source = tokens at hspells
  cases hspells with
  | @query tokens semicolons _ final hdraft =>
    have htokens := (List.append_inj' hscan rfl).1
    rw [htokens]
    exact (hdraft.pointsInto (mem_offences_of_ofQuery hplan)).mono (List.sublist_append_left _ _)

theorem CompileError.isShownAt_of_mem_pieces {piece : Scan.Piece} (h : piece ∈ Scan.pieces source)
    (hspan : piece.span = span) (error : CompileError) : error.IsShownAt source span := by
  have hslice := Scan.slice?_of_mem_pieces h
  exact .stretch (hspan ▸ hslice) (Scan.ne_nil_of_mem_pieces h)
    (Scan.newline_not_mem_of_mem_piecesFrom 0 source.toList piece h)

/-- **Where a syntax error is shown.** -/
theorem isShownAt_of_parse {error : SyntaxError} (h : Query.parse source = .error error) :
    (CompileError.reading error).IsShownAt source error.shownSpan := by
  rcases exists_piece_of_parse h with ⟨piece, hpiece, hspan⟩ | ⟨expected, rfl⟩
  · exact CompileError.isShownAt_of_mem_pieces hpiece hspan _
  · exact .ending expected rfl

/-- **Where a semantic error is shown.** -/
theorem isShownAt_of_ofQuery {known : OrderedSet String} {query : Query} {error : SemanticError}
    (hparse : Query.parse source = .ok query) (hplan : Plan.ofQuery known query = .error error) :
    (CompileError.planning error).IsShownAt source error.span := by
  have hpoints := pointsInto_of_ofQuery hparse hplan
  cases error with
  | unknownColumn | unknownTarget =>
    obtain ⟨token, hmem, rfl⟩ := hpoints
    obtain ⟨piece, hpiece, hspan⟩ := exists_piece_of_mem_tokensOf hmem
    exact CompileError.isShownAt_of_mem_pieces hpiece hspan _
  | unsupported name span =>
    obtain ⟨first, last, hpair, rfl⟩ := hpoints
    have hmem {token : Token} (h : token ∈ [first, last]) : token ∈ tokensOf source :=
      hpair.subset h
    have hslice {token : Token} (h : token ∈ [first, last]) :=
      slice?_of_mem_scan (List.mem_append_left [.endAt (endOf source)] (hmem h))
    have hle : first.span.stop ≤ last.span.start := by
      simpa using (pairwise_tokensOf source).sublist hpair
    obtain ⟨between, hcover⟩ := slice?_cover (hslice (by simp)) (hslice (by simp)) hle
    exact .phrase name hcover (isSolid_of_mem_tokensOf (hmem (by simp)))
      (isSolid_of_mem_tokensOf (hmem (by simp)))

/-- **Where the errors of a source are shown.** -/
theorem exists_isShownAt_of_compile {registry : Registry} {error : CompileError}
    (h : compile registry source = .error error) :
    ∃ span, (error.diagnostic source).excerpt = some ⟨none, source, span⟩ ∧
      error.IsShownAt source span := by
  rcases planSource_eq_error_iff.1 (compile_eq_error_iff.1 h) with
    ⟨cause, hparse, rfl⟩ | ⟨query, cause, hparse, hplan, rfl⟩
  · exact ⟨_, rfl, isShownAt_of_parse hparse⟩
  · exact ⟨_, rfl, isShownAt_of_ofQuery hparse hplan⟩

end

end PinQuery
