import PinQuery.Proofs.Query.Relocation
import PinQuery.Proofs.Token.Places

/-!
# Syntax errors stand at the first misfit

Words are viable if some source of a query begins with them. The reader stops at the first token
that makes the words read so far unviable, and its error points at that token.

* `Stage.completable`: from every stage some words lead to the end of a query. So whatever the
  reader has read is viable (`Reaches.isViable`).
* `Stage.accepts_of_isViable`: a stage goes on with every token that keeps its words viable.
* `SyntaxError.PointsAt`: an error has the span of a token and quotes its text.
* `parse_error_at_first_misfit`: where the reader fails, and with what.
-/

namespace PinQuery

/-! ## Every stage can be completed -/

/-- The words that some source of a query begins with. -/
def IsViable (words : List Word) : Prop :=
  ∃ source query, faultsOf source = [] ∧ SpellsQuery (scan source) query ∧
    words <+: (scan source).map Token.word

namespace Stage

/-- From a stage, some words of a source lead to a stage where the query may end. -/
def Completable (stage : Stage) : Prop :=
  ∃ rest stage', Reaches stage rest stage' ∧ (∀ stop, ∃ query, stage'.finish? stop = some query) ∧
    ∀ token ∈ rest, Scan.IsLexeme token.kind token.text.toList

namespace Completable

variable {stage stage' : Stage}

theorem of_finish (h : ∀ stop, ∃ query, stage.finish? stop = some query) : stage.Completable :=
  ⟨[], stage, rfl, h, by simp⟩

theorem cons (token : Token) (hlexeme : Scan.IsLexeme token.kind token.text.toList)
    (hnext : stage.next? token = some (.ok stage')) (h : stage'.Completable) :
    stage.Completable := by
  obtain ⟨rest, last, hreaches, hfinish, hrest⟩ := h
  refine ⟨token :: rest, last, .cons hnext hreaches, hfinish, fun other hother => ?_⟩
  rcases List.mem_cons.1 hother with rfl | hother
  · exact hlexeme
  · exact hrest other hother

/-- Where a name may stand, any name will do. -/
theorem name (hnext : stage.next? ⟨.name, "x", .empty 0⟩ = some (.ok stage'))
    (h : stage'.Completable) : stage.Completable := by
  have hkind : Scan.wordKind ['x'] = .name := by decide +kernel
  have hlexeme : Scan.IsLexeme (Scan.wordKind ['x']) ['x'] := .word rfl (by simp)
  rw [hkind] at hlexeme
  exact .cons _ hlexeme hnext h

/-- Where a number may stand, any number that fits will do. -/
theorem number (hnext : stage.next? ⟨.number, "0", .empty 0⟩ = some (.ok stage'))
    (h : stage'.Completable) : stage.Completable := by
  have hdigits : ∀ c ∈ ['0'], c.isDigit := List.forall_mem_singleton.2 rfl
  exact .cons _ (.numeral ⟨['0'], [], [], by simp, hdigits, by simp, .none⟩) hnext h

theorem keyword (keyword : Keyword)
    (hnext : stage.next? ⟨.keyword keyword, keyword.spelling, .empty 0⟩ = some (.ok stage'))
    (h : stage'.Completable) : stage.Completable :=
  .cons _ (.keyword keyword) hnext h

end Completable

variable (draft : Draft) (parens : List Paren)

theorem completable_clauses : (clauses draft).Completable :=
  .of_finish fun _ => ⟨_, rfl⟩

/-- Behind a complete conjunct the open parentheses are closed one by one. -/
theorem completable_ended (disjunct : Option Expr) (value : Expr) :
    (condition draft parens (.ended disjunct value)).Completable := by
  induction parens generalizing disjunct value with
  | nil => exact .of_finish fun _ => ⟨_, rfl⟩
  | cons paren parens ih =>
    have hclosing : Scan.IsLexeme .rightParen [')'] := .symbol fun rest _ => rfl
    exact .cons ⟨.rightParen, ")", .empty 0⟩ hclosing rfl (ih _ _)

theorem completable_operator (pending : Pending) (left : Expr) :
    (condition draft parens (.operator pending left)).Completable := by
  have hequal : Scan.IsLexeme .equal ['='] := by
    refine .symbol fun rest hrest => ?_
    obtain rfl | ⟨tail, rfl | rfl | rfl⟩ := hrest.cases <;> rfl
  refine .cons ⟨.equal, "=", .empty 0⟩ hequal rfl ?_
  exact .name rfl (completable_ended draft parens _ _)

theorem completable_condition (place : Place) : (condition draft parens place).Completable := by
  cases place with
  | predicate pending => exact .name rfl (completable_operator draft parens pending _)
  | leftNumber pending sign => exact .number rfl (completable_operator draft parens pending _)
  | operator pending left => exact completable_operator draft parens pending left
  | rightOperand pending left op => exact .name rfl (completable_ended draft parens _ _)
  | rightNumber pending left op sign => exact .number rfl (completable_ended draft parens _ _)
  | ended disjunct value => exact completable_ended draft parens disjunct value

theorem completable_columnEnd (start : Nat) (columns : List Name) :
    (columnEnd start columns).Completable :=
  .keyword .from_ rfl (.name rfl (completable_clauses _))

/-- **Every stage can be completed**: some words lead from it to the end of a query. -/
theorem completable (stage : Stage) : stage.Completable := by
  cases stage with
  | select => exact .keyword .select rfl (.name rfl (completable_columnEnd _ _))
  | column start columns => exact .name rfl (completable_columnEnd start _)
  | columnEnd start columns => exact completable_columnEnd start columns
  | target start columns => exact .name rfl (completable_clauses _)
  | clauses draft => exact completable_clauses draft
  | condition draft parens place => exact completable_condition draft parens place
  | sleep draft sign => cases sign <;> exact .number rfl (completable_clauses _)
  | speed draft sign => cases sign <;> exact .number rfl (completable_clauses _)
  | closed draft => exact .of_finish fun _ => ⟨_, rfl⟩

end Stage

/-- Words that the scanner takes and that the reader goes on with are viable. -/
theorem Reaches.isViable_of_isLexeme {before : List Token} {stage : Stage}
    (h : Reaches .select before stage)
    (hbefore : ∀ token ∈ before, Scan.IsLexeme token.kind token.text.toList) :
    IsViable (before.map Token.word) := by
  obtain ⟨rest, last, hreaches, hfinish, hrest⟩ := stage.completable
  obtain ⟨query, hquery⟩ := hfinish (lastStop (before ++ rest))
  have hspells : SpellsQuery (before ++ rest ++ [.endAt 0]) query :=
    (SpellsStage.select.run (h.trans hreaches)).finish rfl hquery
  have hlexemes : ∀ word ∈ (before ++ rest).map Token.word, Scan.IsLexeme word.kind word.text := by
    intro word hword
    obtain ⟨token, htoken, rfl⟩ := List.mem_map.1 hword
    rcases List.mem_append.1 htoken with htoken | htoken
    · exact hbefore token htoken
    · exact hrest token htoken
  -- The completed words, written with spaces between them, are the source of a query.
  let source' := String.ofList (spaced ((before ++ rest).map Token.word))
  have hreads : ReadsAs source'.toList fun tokens =>
      tokens.map Token.word = (before ++ rest).map Token.word := by
    rw [String.toList_ofList]
    exact readsAs_spaced hlexemes
  obtain ⟨hfaults, hwords⟩ := hreads.tokensOf
  have hscan : (scan source').map Token.word =
      (before ++ rest ++ [Token.endAt 0]).map Token.word := by
    simp only [scan, List.map_append, hwords]
    rfl
  obtain ⟨query', hquery'⟩ := hspells.relocate hscan
  refine ⟨source', query', hfaults, hquery', ?_⟩
  rw [hscan, List.append_assoc, List.map_append]
  exact List.prefix_append _ _

/-- **Whatever the reader has read of a source is viable.** -/
theorem Reaches.isViable {source : String} {before : List Token} {stage : Stage}
    (h : Reaches .select before stage) (hbefore : ∀ token ∈ before, token ∈ tokensOf source) :
    IsViable (before.map Token.word) :=
  h.isViable_of_isLexeme fun token htoken => isLexeme_of_mem_tokensOf (hbefore token htoken)

/-! ## What viable words go on with -/

/-- No stage goes on behind the end of the query. -/
theorem Stage.next?_of_endOfQuery (stage : Stage) {token : Token}
    (h : token.kind = .endOfQuery) : stage.next? token = none := by
  have hname : token.name? = none := by simp [Token.name?, h]
  have hsign : token.sign? = none := by simp [Token.sign?, h]
  cases stage with
  | select => simp [next?, h]
  | column start columns => simp [next?, hname]
  | columnEnd start columns => simp [next?, h]
  | target start columns => simp [next?, hname]
  | clauses draft => simp [next?, Draft.next?, h]
  | condition draft parens place =>
    cases place with
    | predicate pending => simp [next?, Place.next?, Pending.next?, h, hname, hsign]
    | leftNumber pending sign => simp [next?, Place.next?, h]
    | operator pending left => simp [next?, Place.next?, Kind.comparison?, h]
    | rightOperand pending left op => simp [next?, Place.next?, h, hname, hsign]
    | rightNumber pending left op sign => simp [next?, Place.next?, h]
    | ended disjunct value => cases parens <;> simp [next?, Place.next?, Draft.next?, h]
  | sleep draft sign => cases sign <;> simp [next?, h, hsign]
  | speed draft sign => cases sign <;> simp [next?, h, hsign]
  | closed draft => rfl

namespace Reaches

variable {stage stage' stage'' : Stage} {token : Token} {tokens more : List Token}

theorem unique (h : Reaches stage tokens stage') (h' : Reaches stage tokens stage'') :
    stage'' = stage' := by
  unfold Reaches at h h'
  rw [h] at h'
  exact (Except.ok.inj h').symm

theorem exists_step (h : Reaches stage (token :: tokens) stage'') :
    ∃ stage', stage.step token = .ok stage' ∧ Reaches stage' tokens stage'' := by
  unfold Reaches at h
  rw [List.foldlM_cons] at h
  cases hstep : stage.step token with
  | error e => rw [hstep] at h; cases h
  | ok stage' => rw [hstep] at h; exact ⟨stage', rfl, h⟩

theorem exists_of_append (h : Reaches stage (tokens ++ more) stage'') :
    ∃ stage', Reaches stage tokens stage' ∧ Reaches stage' more stage'' := by
  unfold Reaches at h
  rw [List.foldlM_append] at h
  cases hrun : tokens.foldlM Stage.step stage with
  | error e => rw [hrun] at h; cases h
  | ok stage' => rw [hrun] at h; exact ⟨stage', hrun, h⟩

end Reaches

/-- A token that keeps the words viable is one the stage goes on with, or it is the end of a query
that may end at this stage. -/
theorem Stage.accepts_of_isViable {before : List Token} {token : Token} {stage : Stage}
    (h : Reaches .select before stage) (hviable : IsViable ((before ++ [token]).map Token.word)) :
    (∃ stage', stage.step token = .ok stage') ∨
      token.kind = .endOfQuery ∧ ∃ query, stage.finish? (lastStop before) = some query := by
  obtain ⟨source, query, -, hquery, words, hwords⟩ := hviable
  obtain ⟨first, rest, hscan, hfirst, -⟩ := List.map_eq_append_iff.1 hwords.symm
  have hsame : (before ++ token :: rest).map Token.word = (scan source).map Token.word := by
    rw [hscan, List.append_cons, List.map_append, ← hfirst, ← List.map_append]
  obtain ⟨query', hquery'⟩ := hquery.relocate hsame
  obtain ⟨body, final, last, htokens, hfinal, hreaches, hfinish⟩ := hquery'.reaches
  rcases List.eq_nil_or_concat rest with rfl | ⟨more, other, rfl⟩
  · obtain ⟨rfl, htoken⟩ := List.append_inj' htokens rfl
    obtain rfl := h.unique hreaches
    rw [List.singleton_inj.1 htoken]
    exact .inr ⟨hfinal, query', hfinish⟩
  · have hbody : before ++ token :: more = body := by
      rw [List.concat_eq_append, ← List.cons_append, ← List.append_assoc] at htokens
      exact (List.append_inj' htokens rfl).1
    rw [← hbody] at hreaches
    obtain ⟨stage', hbefore, hrest⟩ := hreaches.exists_of_append
    obtain rfl := h.unique hbefore
    obtain ⟨next, hstep, -⟩ := hrest.exists_step
    exact .inl ⟨next, hstep⟩

/-! ## Errors -/

/-- The text that a cause quotes from the source. -/
def SyntaxCause.found? : SyntaxCause → Option String
  | .unexpectedToken _ found => some found
  | .expectedCondition found => some found
  | _ => none

/-- An error that points at a token: it stands there, and quotes nothing but its text. -/
structure SyntaxError.PointsAt (error : SyntaxError) (token : Token) : Prop where
  span : error.span = token.span
  found : ∀ found ∈ error.cause.found?, found = token.text

theorem Token.eq_invalidNumber_of_literal {α : Type} {token : Token} {sign : Option Sign}
    {next : Literal → α} {error : SyntaxError}
    (h : (token.literal sign).map next = .error error) : error = ⟨.invalidNumber, token.span⟩ := by
  unfold Token.literal at h
  split at h
  next =>
    cases h
    rfl
  next => split at h <;> cases h

theorem Pending.eq_invalidNumber_of_next? {pending : Pending} {draft : Draft} {parens : List Paren}
    {token : Token} {error : SyntaxError}
    (h : pending.next? draft parens token = some (.error error)) :
    error = ⟨.invalidNumber, token.span⟩ := by
  unfold Pending.next? at h
  split at h
  next => cases h
  next => cases h
  next => exact Token.eq_invalidNumber_of_literal (Option.some.inj h)
  next => split at h <;> cases h

theorem Place.eq_invalidNumber_of_next? {place : Place} {draft : Draft} {parens : List Paren}
    {token : Token} {error : SyntaxError}
    (h : place.next? draft parens token = some (.error error)) :
    error = ⟨.invalidNumber, token.span⟩ := by
  cases place with
  | predicate pending => exact Pending.eq_invalidNumber_of_next? h
  | leftNumber pending sign =>
    simp only [next?] at h
    split at h
    next => exact Token.eq_invalidNumber_of_literal (Option.some.inj h)
    next => cases h
  | operator pending left =>
    simp [next?] at h
  | rightOperand pending left op =>
    simp only [next?] at h
    split at h
    next => exact Token.eq_invalidNumber_of_literal (Option.some.inj h)
    next => split at h <;> cases h
  | rightNumber pending left op sign =>
    simp only [next?] at h
    split at h
    next => exact Token.eq_invalidNumber_of_literal (Option.some.inj h)
    next => cases h
  | ended disjunct value =>
    simp only [next?] at h
    split at h <;> simp at h

/-- A token that may stand at a stage is an error only as a number that does not fit. -/
theorem Stage.eq_invalidNumber_of_next? {stage : Stage} {token : Token} {error : SyntaxError}
    (h : stage.next? token = some (.error error)) : error = ⟨.invalidNumber, token.span⟩ := by
  cases stage with
  | select =>
    simp only [next?] at h
    split at h <;> cases h
  | column start columns => simp [next?] at h
  | columnEnd start columns =>
    simp only [next?] at h
    split at h <;> cases h
  | target start columns => simp [next?] at h
  | clauses draft => simp [next?] at h
  | condition draft parens place => exact Place.eq_invalidNumber_of_next? h
  | sleep draft sign =>
    simp only [next?] at h
    split at h
    next => exact Token.eq_invalidNumber_of_literal (Option.some.inj h)
    next => cases h
    next => cases h
  | speed draft sign =>
    simp only [next?] at h
    split at h
    next => exact Token.eq_invalidNumber_of_literal (Option.some.inj h)
    next => cases h
    next => cases h
  | closed draft => cases h

theorem Stage.pointsAt_unexpected (stage : Stage) (token : Token) :
    (stage.unexpected token).PointsAt token := by
  unfold unexpected
  split <;> exact ⟨rfl, by simp [SyntaxCause.found?]⟩

theorem Stage.pointsAt_refuse (stage : Stage) (token : Token) :
    (stage.refuse token).PointsAt token := by
  unfold refuse
  split
  next => exact pointsAt_unexpected _ token
  next => exact pointsAt_unexpected _ token
  next => exact ⟨rfl, by simp [SyntaxCause.found?]⟩
  next => exact ⟨rfl, by simp [SyntaxCause.found?]⟩
  next => exact pointsAt_unexpected _ token

/-- An error of reading a token points at the token. -/
theorem Stage.pointsAt_of_step {stage : Stage} {token : Token} {error : SyntaxError}
    (h : stage.step token = .error error) : error.PointsAt token := by
  unfold step at h
  split at h
  next hnext =>
    rw [h] at hnext
    cases eq_invalidNumber_of_next? hnext
    exact ⟨rfl, by simp [SyntaxCause.found?]⟩
  next =>
    cases h
    exact stage.pointsAt_refuse token

theorem exists_refused_of_foldlM {tokens : List Token} {stage : Stage} {error : SyntaxError}
    (h : tokens.foldlM Stage.step stage = .error error) :
    ∃ before token after stage', tokens = before ++ token :: after ∧
      Reaches stage before stage' ∧ stage'.step token = .error error := by
  induction tokens generalizing stage with
  | nil => cases h
  | cons token tokens ih =>
    rw [List.foldlM_cons] at h
    cases hstep : stage.step token with
    | error e =>
      rw [hstep] at h
      cases h
      exact ⟨[], token, tokens, stage, rfl, rfl, hstep⟩
    | ok next =>
      rw [hstep] at h
      obtain ⟨before, other, after, stage', rfl, hreaches, hother⟩ := ih h
      refine ⟨token :: before, other, after, stage', rfl, ?_, hother⟩
      unfold Reaches at hreaches ⊢
      rw [List.foldlM_cons, hstep]
      exact hreaches

/-- A text that is not read as a query is refused at one of its tokens; if that is the end, the
query could not end there. -/
theorem exists_refused {tokens : List Token} {size : Nat} {error : SyntaxError}
    (h : Query.read tokens size = .error error) :
    ∃ before token after stage, tokens ++ [.endAt size] = before ++ token :: after ∧
      Reaches .select before stage ∧ stage.step token = .error error ∧
      (after = [] → stage.finish? (lastStop before) = none) := by
  unfold Query.read at h
  cases hrun : tokens.foldlM Stage.step .select with
  | error e =>
    rw [hrun] at h
    cases h
    obtain ⟨before, token, after, stage, rfl, hreaches, hstep⟩ := exists_refused_of_foldlM hrun
    exact ⟨before, token, after ++ [.endAt size], stage, by simp, hreaches, hstep, by simp⟩
  | ok stage =>
    rw [hrun] at h
    simp only [bind, Except.bind] at h
    split at h
    next => cases h
    next hfinish =>
      cases h
      refine ⟨tokens, .endAt size, [], stage, rfl, hrun, ?_, fun _ => hfinish⟩
      rw [Stage.step, stage.next?_of_endOfQuery rfl]

/-! ## The first misfit -/

/-- The first token of a source that its words cannot go on with: those before it are viable, and
with it they are not. -/
structure IsFirstMisfit (source : String) (i : Nat) (token : Token) : Prop where
  at_index : (scan source)[i]? = some token
  viable : IsViable (((scan source).take i).map Token.word)
  not_viable : ¬IsViable (((scan source).take (i + 1)).map Token.word)

theorem isFirstMisfit_of_refused {source : String} {before after : List Token} {token : Token}
    {stage : Stage} {error : SyntaxError} (hscan : scan source = before ++ token :: after)
    (hreaches : Reaches .select before stage) (hstep : stage.step token = .error error)
    (hend : after = [] → stage.finish? (lastStop before) = none) :
    IsFirstMisfit source before.length token := by
  have htokens : tokensOf source = before ++ (token :: after).dropLast := by
    simpa [scan, List.dropLast_append_of_ne_nil] using congrArg List.dropLast hscan
  refine ⟨by simp [hscan], ?_, fun hviable => ?_⟩
  · rw [hscan, List.take_left]
    exact hreaches.isViable fun other hother => htokens ▸ List.mem_append_left _ hother
  · rw [hscan, List.append_cons, List.take_left' (by simp)] at hviable
    rcases Stage.accepts_of_isViable hreaches hviable with
      ⟨stage', hstage'⟩ | ⟨hkind, query, hquery⟩
    · rw [hstep] at hstage'
      cases hstage'
    · cases after with
      | nil =>
        rw [hend rfl] at hquery
        cases hquery
      | cons other after =>
        -- Before the last token no token is the end of the query.
        have hmem : token ∈ tokensOf source := by simp [htokens]
        exact (isLexeme_of_mem_tokensOf hmem).ne_endOfQuery hkind

/-- **Syntax errors are reported at the first token that cannot go on with a query.** A source
without faulty stretches that is no query has such a token; the error has its span, and any text
that the error quotes is the text under that span. In a source with faulty stretches the leftmost
one is reported, whatever else is wrong. -/
theorem parse_error_at_first_misfit (source : String) :
    (∀ error, faultsOf source = [] → Query.parse source = .error error →
      ∃ i token, IsFirstMisfit source i token ∧ error.span = token.span ∧
        ∀ found ∈ error.cause.found?,
          Text.slice? token.span source.toList = some found.toList) ∧
    (faultsOf source ≠ [] → ∃ span ∈ faultsOf source,
      Query.parse source = .error ⟨.invalidCharacter, span⟩ ∧
        ∀ other ∈ faultsOf source, other ≠ span → span.start < other.start) := by
  constructor
  · intro error hfaults herror
    have hread : Query.read (tokensOf source) (endOf source) = .error error := by
      rwa [Query.parse, hfaults] at herror
    obtain ⟨before, token, after, stage, hscan, hreaches, hstep, hend⟩ := exists_refused hread
    have hpoints := Stage.pointsAt_of_step hstep
    have hmem : token ∈ scan source := by
      rw [scan, hscan]
      simp
    refine ⟨before.length, token, isFirstMisfit_of_refused hscan hreaches hstep hend, hpoints.span,
      fun found hfound => ?_⟩
    rw [hpoints.found found hfound]
    exact slice?_of_mem_scan hmem
  · intro hne
    obtain ⟨span, rest, hfaults⟩ := List.exists_cons_of_ne_nil hne
    have hpairwise := pairwise_faultsOf source
    rw [hfaults] at hpairwise
    refine ⟨span, by simp [hfaults], by rw [Query.parse, hfaults], fun other hother hne => ?_⟩
    rw [hfaults] at hother
    rcases List.mem_cons.1 hother with rfl | hother
    · exact absurd rfl hne
    · exact List.rel_of_pairwise_cons hpairwise hother

/-- Behind a line speed no delay may follow, so the error stands at its keyword; and of two faulty
stretches the left one is reported, although the source does not even begin like a query. -/
theorem parse_error_lateSleep :
    (∃ i token, IsFirstMisfit "SELECT x FROM y RSPEED 1 RSLEEP 2" i token ∧
      token.span = ⟨25, 31⟩ ∧
      Text.slice? token.span "SELECT x FROM y RSPEED 1 RSLEEP 2".toList = some "RSLEEP".toList) ∧
    Query.parse "FROM # WHERE ?" = .error ⟨.invalidCharacter, ⟨5, 6⟩⟩ := by
  have hfaults : faultsOf "SELECT x FROM y RSPEED 1 RSLEEP 2" = [] := by decide +kernel
  have herror : Query.parse "SELECT x FROM y RSPEED 1 RSLEEP 2" =
      .error ⟨.unexpectedToken (some "end of query") "RSLEEP", ⟨25, 31⟩⟩ := by decide +kernel
  have hfaults' : faultsOf "FROM # WHERE ?" = [⟨5, 6⟩, ⟨13, 14⟩] := by decide +kernel
  constructor
  · obtain ⟨i, token, hmisfit, hspan, hfound⟩ :=
      (parse_error_at_first_misfit _).1 _ hfaults herror
    exact ⟨i, token, hmisfit, hspan.symm, hfound _ rfl⟩
  · obtain ⟨span, hmem, hparse, hfirst⟩ :=
      (parse_error_at_first_misfit "FROM # WHERE ?").2 (by simp [hfaults'])
    have hspan : span = ⟨5, 6⟩ := by
      rw [hfaults'] at hmem hfirst
      by_contra hne
      have hlt := hfirst ⟨5, 6⟩ (by simp) (Ne.symm hne)
      have hother : span = ⟨13, 14⟩ := by simpa [hne] using hmem
      rw [hother] at hlt
      exact absurd hlt (by decide)
    rw [hparse, hspan]

end PinQuery
