import PinQuery.Proofs.Query.Alike
import PinQuery.Proofs.Query.Viability

/-!
# What errors name as expected

An error of the reader names what could have stood where it gave up. This module says when that is
so: always, but behind the semicolon, where the clauses that are still missing are named although
nothing but the end may follow.

* `Expectation.phrase_injective`: the text of an error names its alternatives without ambiguity.
* `Expectation.Names expectation word`: the words of the class that an alternative names, and
  `Expectation.IsLegal before expectation`: these words go on with `before` as in some query.
* `Stage.accepts_of_expected`: a stage goes on with the words that it names.
* `expected_could_follow`: which alternatives of an error are legal.
-/

namespace PinQuery

/-! ## The text of expectations -/

namespace Expectation

/-- Every expectation. -/
def all : List Expectation :=
  Keyword.all.map .keyword ++ [.columnName, .targetName, .number, .condition, .comparison,
    .closingParen, .endOfQuery]

theorem mem_all (expectation : Expectation) : expectation ∈ all := by
  cases expectation with
  | keyword word => cases word <;> decide
  | _ => decide

/-- No expectation has a text that another one begins with. -/
theorem eq_of_isPrefix {expectation other : Expectation}
    (h : expectation.text.toList <+: other.text.toList) : expectation = other := by
  have hall : ∀ e ∈ all, ∀ e' ∈ all, e.text.toList.isPrefixOf e'.text.toList = true → e = e' := by
    decide +kernel
  exact hall _ (mem_all _) _ (mem_all _) (List.isPrefixOf_iff_prefix.2 h)

/-- What stands behind the first of several expectations. -/
def phraseTail : List Expectation → String
  | [] => ""
  | [last] => " or " ++ last.text
  | rest => ", " ++ phrase rest

theorem phrase_cons (first : Expectation) (rest : List Expectation) :
    phrase (first :: rest) = first.text ++ phraseTail rest := by
  cases rest with
  | nil => simp [phrase, phraseTail]
  | cons second rest =>
    cases rest <;> simp [phrase, phraseTail, String.append_assoc]

theorem text_ne_empty (expectation : Expectation) : expectation.text.toList ≠ [] := by
  have hall : ∀ e ∈ all, e.text.toList ≠ [] := by decide +kernel
  exact hall _ (mem_all _)

/-- The first expectation of a phrase is the one whose text the phrase begins with. -/
theorem eq_of_append_eq_append {first first' : Expectation} {tail tail' : List Char}
    (h : first.text.toList ++ tail = first'.text.toList ++ tail') : first = first' ∧ tail = tail' := by
  have hstarts : first.text.toList <+: first'.text.toList ++ tail' := ⟨tail, h⟩
  have hstarts' : first'.text.toList <+: first'.text.toList ++ tail' := List.prefix_append _ _
  have heq : first = first' := by
    rcases Nat.le_total first.text.toList.length first'.text.toList.length with hle | hle
    · exact eq_of_isPrefix (List.prefix_of_prefix_length_le hstarts hstarts' hle)
    · exact (eq_of_isPrefix (List.prefix_of_prefix_length_le hstarts' hstarts hle)).symm
  subst heq
  exact ⟨rfl, List.append_cancel_left h⟩

/-- **A phrase names its expectations without ambiguity.** -/
theorem phrase_injective : Function.Injective phrase := by
  intro expectations
  induction expectations with
  | nil =>
    intro others h
    cases others with
    | nil => rfl
    | cons other others =>
      have hempty := congrArg String.toList h
      rw [phrase_cons, String.toList_append] at hempty
      exact absurd (List.append_eq_nil_iff.1 hempty.symm).1 (text_ne_empty other)
  | cons first rest ih =>
    intro others h
    cases others with
    | nil =>
      have hempty := congrArg String.toList h
      rw [phrase_cons, String.toList_append] at hempty
      exact absurd (List.append_eq_nil_iff.1 hempty).1 (text_ne_empty first)
    | cons first' rest' =>
      have hlist := congrArg String.toList h
      rw [phrase_cons, phrase_cons, String.toList_append, String.toList_append] at hlist
      obtain ⟨rfl, htail⟩ := eq_of_append_eq_append hlist
      -- An `or` stands before the last of them, a comma before any other.
      have hrest : rest = rest' := by
        match rest, rest' with
        | [], [] => rfl
        | [], [_] | [], _ :: _ :: _ | [_], [] | _ :: _ :: _, [] => simp [phraseTail] at htail
        | [_], _ :: _ :: _ | _ :: _ :: _, [_] => simp [phraseTail] at htail
        | [last], [last'] =>
          simp only [phraseTail, String.toList_append, List.append_cancel_left_eq] at htail
          rw [eq_of_isPrefix (htail ▸ List.prefix_rfl : last.text.toList <+: last'.text.toList)]
        | _ :: _ :: _, _ :: _ :: _ =>
          simp only [phraseTail, String.toList_append, List.append_cancel_left_eq] at htail
          exact ih (String.toList_inj.1 htail)
      rw [hrest]

end Expectation

/-! ## The words that expectations name -/

/-- A numeral that fits. -/
def Word.IsNumber (word : Word) : Prop :=
  word.kind = .number ∧ ∃ value, DenotesNumber word.text value

/-- The words of the class that an expectation names. A condition is named by the words that it can
begin with. -/
def Expectation.Names (word : Word) : Expectation → Prop
  | .keyword reserved => word.kind = .keyword reserved
  | .columnName | .targetName => word.kind = .name ∨ word.kind = .quotedName
  | .number => word.IsNumber
  | .condition => word.IsNumber ∨ word.kind ∈ [.name, .quotedName, .plus, .minus, .leftParen,
      .keyword .not]
  | .comparison => ∃ op, DenotesComparison word.kind op
  | .closingParen => word.kind = .rightParen
  | .endOfQuery => word.kind = .endOfQuery

/-- An expectation is legal behind some tokens: they are already those of a query, where the end is
expected, and otherwise any word that it names goes on with them as in some query. -/
def Expectation.IsLegal (before : List Token) (expectation : Expectation) : Prop :=
  if expectation = .endOfQuery then
    ∃ query, SpellsQuery (before ++ [.endAt (lastStop before)]) query
  else
    ∀ word : Word, Scan.IsLexeme word.kind word.text → expectation.Names word →
      IsViable (before.map Token.word ++ [word])

/-- Every expectation but the end names some word that the scanner takes. -/
theorem Expectation.exists_names {expectation : Expectation} (h : expectation ≠ .endOfQuery) :
    ∃ word : Word, Scan.IsLexeme word.kind word.text ∧ expectation.Names word := by
  have hname : Scan.IsLexeme .quotedName ('\x60' :: ([] ++ ['\x60'])) := .quotedName (by simp)
  have hdigits : ∀ c ∈ ['0'], c.isDigit := List.forall_mem_singleton.2 rfl
  have hnumber : Scan.IsLexeme .number ['0'] :=
    .numeral ⟨['0'], [], [], by simp, hdigits, by simp, .none⟩
  cases expectation with
  | keyword keyword => exact ⟨⟨.keyword keyword, keyword.spelling.toList⟩, .keyword keyword, rfl⟩
  | columnName | targetName => exact ⟨⟨.quotedName, _⟩, hname, .inr rfl⟩
  | number => exact ⟨⟨.number, ['0']⟩, hnumber, rfl, _, Number.ofNumeral?_eq_some_iff.1 rfl⟩
  | condition => exact ⟨⟨.quotedName, _⟩, hname, .inr (by simp)⟩
  | comparison =>
    refine ⟨⟨.lessEqual, ['<', '=']⟩, .symbol fun rest _ => rfl, _, .lessEqual⟩
  | closingParen => exact ⟨⟨.rightParen, [')']⟩, .symbol fun rest _ => rfl, rfl⟩
  | endOfQuery => exact absurd rfl h

/-! ## A stage goes on with what it names -/

section

variable {token : Token} {draft : Draft} {parens : List Paren}

theorem Token.exists_literal (h : token.word.IsNumber) (sign : Option Sign) :
    token.kind = .number ∧ ∃ literal, token.literal sign = .ok literal := by
  obtain ⟨hkind, value, hvalue⟩ := h
  exact ⟨hkind, _, Token.literal_eq_ok_iff.2 ⟨value, hvalue, rfl⟩⟩

theorem Token.exists_name? (h : token.kind = .name ∨ token.kind = .quotedName) :
    ∃ name, token.name? = some name := by
  rcases h with h | h <;> simp [Token.name?, h]

theorem Draft.exists_next?_of_expected {keyword : Keyword} (h : .keyword keyword ∈ draft.expected) :
    ∃ stage, draft.next? (.keyword keyword) = some stage := by
  unfold Draft.expected at h
  split at h
  next => simp at h
  next _ _ hsleep hspeed =>
    obtain rfl : keyword = .rspeed := by simpa using h
    simp [Draft.next?, hspeed]
  next _ hsleep hspeed =>
    obtain rfl | rfl : keyword = .rsleep ∨ keyword = .rspeed := by simpa using h
    all_goals simp [Draft.next?, hsleep, hspeed]
  next hcondition hsleep hspeed =>
    obtain rfl | rfl | rfl : keyword = .where_ ∨ keyword = .rsleep ∨ keyword = .rspeed := by
      simpa using h
    all_goals simp [Draft.next?, hcondition, hsleep, hspeed]

theorem Draft.keyword_of_expected {expectation : Expectation} (h : expectation ∈ draft.expected) :
    expectation = .endOfQuery ∨
      ∃ keyword, expectation = .keyword keyword ∧ keyword ∈ [.where_, .rsleep, .rspeed] := by
  unfold Draft.expected at h
  split at h <;> simp only [List.mem_cons, List.not_mem_nil, or_false] at h ⊢ <;> grind

theorem Place.accepts_of_expected {place : Place} {expectation : Expectation}
    (h : expectation ∈ place.expected draft parens) (hend : expectation ≠ .endOfQuery)
    (hnames : expectation.Names token.word) :
    ∃ stage, place.next? draft parens token = some (.ok stage) := by
  cases place with
  | predicate pending =>
    obtain rfl := List.mem_singleton.1 h
    rcases hnames with hnumber | hkind
    · obtain ⟨hkind, literal, hliteral⟩ := Token.exists_literal hnumber none
      exact ⟨_, by simp only [next?, Pending.next?, hkind, hliteral]; rfl⟩
    · have hkind : token.kind ∈ [.name, .quotedName, .plus, .minus, .leftParen, .keyword .not] :=
        hkind
      simp only [List.mem_cons, List.not_mem_nil, or_false] at hkind
      rcases hkind with hkind | hkind | hkind | hkind | hkind | hkind <;>
        simp [next?, Pending.next?, Token.name?, Token.sign?, hkind]
  | leftNumber pending sign =>
    obtain rfl := List.mem_singleton.1 h
    obtain ⟨hkind, literal, hliteral⟩ := Token.exists_literal hnames (some sign)
    exact ⟨_, by simp only [next?, hkind, hliteral]; rfl⟩
  | operator pending left =>
    obtain rfl := List.mem_singleton.1 h
    obtain ⟨op, hop⟩ := hnames
    have hcomparison : token.kind.comparison? = some op := Kind.comparison?_eq_some_iff.2 hop
    exact ⟨_, by simp only [next?, hcomparison]; rfl⟩
  | rightOperand pending left op =>
    rcases List.mem_pair.1 h with rfl | rfl
    · obtain ⟨name, hname⟩ := Token.exists_name? hnames
      exact ⟨_, next?_of_name hname _ draft parens⟩
    · obtain ⟨hkind, literal, hliteral⟩ := Token.exists_literal hnames none
      exact ⟨_, by simp only [next?, hkind, hliteral]; rfl⟩
  | rightNumber pending left op sign =>
    obtain rfl := List.mem_singleton.1 h
    obtain ⟨hkind, literal, hliteral⟩ := Token.exists_literal hnames (some sign)
    exact ⟨_, by simp only [next?, hkind, hliteral]; rfl⟩
  | ended disjunct value =>
    cases parens with
    | nil =>
      obtain ⟨keyword, rfl, hclause⟩ := (Draft.keyword_of_expected h).resolve_left hend
      have hkind : token.kind = .keyword keyword := hnames
      have hand : token.kind ≠ .keyword .and := by
        rw [hkind]
        rintro ⟨⟩
        simp at hclause
      have hor : token.kind ≠ .keyword .or := by
        rw [hkind]
        rintro ⟨⟩
        simp at hclause
      obtain ⟨stage, hstage⟩ := Draft.exists_next?_of_expected h
      exact ⟨stage, by rw [next?_ended_nil hand hor, hkind, hstage]; rfl⟩
    | cons paren parens =>
      obtain rfl := List.mem_singleton.1 h
      have hkind : token.kind = .rightParen := hnames
      exact ⟨_, by simp only [next?, hkind]; rfl⟩

/-- A stage goes on with every word that it names as expected, the semicolon apart. -/
theorem Stage.accepts_of_expected {stage : Stage} {expectation : Expectation}
    (hopen : ∀ draft, stage ≠ .closed draft) (h : expectation ∈ stage.expected)
    (hend : expectation ≠ .endOfQuery) (hnames : expectation.Names token.word) :
    ∃ stage', stage.next? token = some (.ok stage') := by
  cases stage with
  | select =>
    obtain rfl := List.mem_singleton.1 h
    have hkind : token.kind = .keyword .select := hnames
    exact ⟨_, if_pos hkind⟩
  | column start columns =>
    obtain rfl := List.mem_singleton.1 h
    obtain ⟨name, hname⟩ := Token.exists_name? hnames
    exact ⟨_, by rw [next?, hname]; rfl⟩
  | columnEnd start columns =>
    obtain rfl := List.mem_singleton.1 h
    have hkind : token.kind = .keyword .from_ := hnames
    exact ⟨.target start columns, by simp [next?, hkind]⟩
  | target start columns =>
    obtain rfl := List.mem_singleton.1 h
    obtain ⟨name, hname⟩ := Token.exists_name? hnames
    exact ⟨_, by rw [next?, hname]; rfl⟩
  | clauses draft =>
    obtain ⟨keyword, rfl, -⟩ := (Draft.keyword_of_expected h).resolve_left hend
    have hkind : token.kind = .keyword keyword := hnames
    obtain ⟨stage', hstage'⟩ := Draft.exists_next?_of_expected h
    exact ⟨stage', by rw [next?, hkind, hstage']; rfl⟩
  | condition draft parens place => exact Place.accepts_of_expected h hend hnames
  | sleep draft sign | speed draft sign =>
    obtain rfl := List.mem_singleton.1 h
    obtain ⟨hkind, literal, hliteral⟩ := Token.exists_literal hnames sign
    exact ⟨_, by simp only [next?, hkind, hliteral]; rfl⟩
  | closed draft => exact absurd rfl (hopen draft)

/-- Where a stage names the end as expected, the query may end. -/
theorem Stage.exists_finish?_of_expected {stage : Stage} (h : .endOfQuery ∈ stage.expected)
    (stop : Nat) : ∃ query, stage.finish? stop = some query := by
  cases stage with
  | select | column | columnEnd | target | sleep | speed => simp [expected] at h
  | clauses draft | closed draft => exact ⟨_, rfl⟩
  | condition draft parens place =>
    cases place with
    | predicate | leftNumber | operator | rightOperand | rightNumber =>
      simp [expected, Place.expected] at h
    | ended disjunct value =>
      cases parens with
      | nil => exact ⟨_, rfl⟩
      | cons paren parens => simp [expected, Place.expected] at h

/-! ## Behind the semicolon -/

/-- A semicolon closes the query. -/
theorem Stage.exists_closed_of_semicolon {stage stage' : Stage} (hkind : token.kind = .semicolon)
    (h : stage.next? token = some (.ok stage')) : ∃ draft, stage' = .closed draft := by
  have hname : token.name? = none := by simp [Token.name?, hkind]
  have hsign : token.sign? = none := by simp [Token.sign?, hkind]
  have hdraft (draft : Draft) : draft.next? .semicolon = some (.closed draft) := rfl
  cases stage with
  | select | columnEnd => simp [next?, hkind] at h
  | column | target => simp [next?, hname] at h
  | clauses draft =>
    simp only [next?, hkind, hdraft, Option.map_some, Option.some.injEq, Except.ok.injEq] at h
    exact ⟨draft, h.symm⟩
  | condition draft parens place =>
    cases place with
    | predicate => simp [next?, Place.next?, Pending.next?, hkind, hname, hsign] at h
    | leftNumber | rightNumber => simp [next?, Place.next?, hkind] at h
    | operator => simp [next?, Place.next?, Kind.comparison?, hkind] at h
    | rightOperand => simp [next?, Place.next?, hkind, hname, hsign] at h
    | ended disjunct value =>
      cases parens with
      | nil =>
        simp only [next?, Place.next?, hkind, hdraft, Option.map_some, Option.some.injEq,
          Except.ok.injEq] at h
        exact ⟨_, h.symm⟩
      | cons paren parens => simp [next?, Place.next?, hkind] at h
  | sleep draft sign | speed draft sign => cases sign <;> simp [next?, hkind, hsign] at h
  | closed draft => cases h

end

/-- Tokens of which the last is a semicolon. -/
def EndsInSemicolon (tokens : List Token) : Prop :=
  ∃ front last, tokens = front ++ [last] ∧ last.kind = .semicolon

theorem Stage.ok_of_step {stage stage' : Stage} {token : Token} (h : stage.step token = .ok stage') :
    stage.next? token = some (.ok stage') := by
  unfold step at h
  split at h
  next result hresult => rw [hresult, h]
  next => cases h

/-- The closed stages are those behind a semicolon. -/
theorem Reaches.endsInSemicolon_iff {before : List Token} {stage : Stage}
    (h : Reaches .select before stage) :
    EndsInSemicolon before ↔ ∃ draft, stage = .closed draft := by
  constructor
  · rintro ⟨front, last, rfl, hkind⟩
    obtain ⟨stage', -, hlast⟩ := h.exists_of_append
    obtain ⟨_, hstep, hnil⟩ := hlast.exists_step
    cases hnil
    exact Stage.exists_closed_of_semicolon hkind (Stage.ok_of_step hstep)
  · rintro ⟨draft, rfl⟩
    have hspells := SpellsStage.select.run h
    generalize hstage : Stage.closed draft = stage at hspells
    cases hspells with
    | closed _ hkind => exact ⟨_, _, rfl, hkind⟩
    | _ => cases hstage

/-! ## Legal alternatives -/

theorem Word.exists_token (word : Word) : ∃ token : Token, token.word = word :=
  ⟨⟨word.kind, String.ofList word.text, .empty 0⟩, by simp [Token.word]⟩

/-- **The alternatives of a stage are legal, unless it is behind the semicolon**, where only the end
is. -/
theorem Reaches.isLegal_iff {source : String} {before : List Token} {stage : Stage}
    {expectation : Expectation} (h : Reaches .select before stage)
    (hbefore : ∀ token ∈ before, token ∈ tokensOf source) (hexpected : expectation ∈ stage.expected) :
    expectation.IsLegal before ↔ (EndsInSemicolon before → expectation = .endOfQuery) := by
  by_cases hend : expectation = .endOfQuery
  · subst hend
    obtain ⟨query, hquery⟩ := Stage.exists_finish?_of_expected hexpected (lastStop before)
    refine iff_of_true ?_ fun _ => rfl
    rw [Expectation.IsLegal, if_pos rfl]
    exact ⟨query, (SpellsStage.select.run h).finish rfl hquery⟩
  · rw [Expectation.IsLegal, if_neg hend, h.endsInSemicolon_iff]
    simp only [hend, imp_false]
    constructor
    · rintro hlegal ⟨draft, rfl⟩
      obtain ⟨word, hlexeme, hnames⟩ := Expectation.exists_names hend
      obtain ⟨token, rfl⟩ := word.exists_token
      have hviable := hlegal token.word hlexeme hnames
      rw [← List.map_singleton, ← List.map_append] at hviable
      rcases Stage.accepts_of_isViable h hviable with ⟨stage', hstep⟩ | ⟨hkind, -⟩
      · cases hstep
      · exact hlexeme.ne_endOfQuery hkind
    · intro hopen word hlexeme hnames
      obtain ⟨token, rfl⟩ := word.exists_token
      obtain ⟨stage', hnext⟩ := Stage.accepts_of_expected
        (fun draft hdraft => hopen ⟨draft, hdraft⟩) hexpected hend hnames
      have hviable := (h.trans (.single hnext)).isViable_of_isLexeme fun other hother => by
        rcases List.mem_append.1 hother with hother | hother
        · exact isLexeme_of_mem_tokensOf (hbefore other hother)
        · rw [List.mem_singleton.1 hother]
          exact hlexeme
      rwa [List.map_append, List.map_singleton] at hviable

/-- An error that names something as expected names what its stage does. -/
theorem Stage.phrase_of_step {stage : Stage} {token : Token} {error : SyntaxError} {expected : String}
    (h : stage.step token = .error error) (hexpected : error.cause.expected? = some expected) :
    expected = Expectation.phrase stage.expected := by
  have hunexpected (h : (stage.unexpected token).cause.expected? = some expected) :
      expected = Expectation.phrase stage.expected := by
    unfold unexpected at h
    split at h
    next => exact (Option.some.inj h).symm
    next => cases h
    next => exact (Option.some.inj h).symm
  unfold step at h
  split at h
  next hnext =>
    rw [h] at hnext
    cases eq_invalidNumber_of_next? hnext
    cases hexpected
  next =>
    cases h
    unfold refuse at hexpected
    split at hexpected
    next => exact hunexpected hexpected
    next => exact hunexpected hexpected
    next => cases hexpected
    next => cases hexpected
    next => exact hunexpected hexpected

theorem Stage.expected_ne_nil (stage : Stage) : stage.expected ≠ [] := by
  have hdraft (draft : Draft) : draft.expected ≠ [] := by
    unfold Draft.expected
    split <;> simp
  cases stage with
  | select | column | columnEnd | target | sleep | speed => simp [expected]
  | clauses draft | closed draft => exact hdraft draft
  | condition draft parens place =>
    cases place with
    | predicate | leftNumber | operator | rightOperand | rightNumber =>
      simp [expected, Place.expected]
    | ended disjunct value =>
      cases parens with
      | nil => exact hdraft _
      | cons paren parens => simp [expected, Place.expected]

/-- **What an error names as expected could really have come next, the clauses behind the semicolon
apart.** An error of the reader that names something as expected stands at a token of the source, and
its text names certain alternatives. If a semicolon stands before the token, the end of the query is
the only legal one of them. Otherwise every one is legal: the tokens before, followed by any word that
it names, are the beginning of a query, or they are already a query where it is the end. -/
theorem expected_could_follow {source : String} {error : SyntaxError} {expected : String}
    (h : Query.parse source = .error error) (hexpected : error.cause.expected? = some expected) :
    ∃ before token after alternatives, scan source = before ++ token :: after ∧
      error.span = token.span ∧ alternatives ≠ [] ∧
      (∀ others, Expectation.phrase others = expected ↔ others = alternatives) ∧
      ∀ alternative ∈ alternatives,
        alternative.IsLegal before ↔ (EndsInSemicolon before → alternative = .endOfQuery) := by
  have hread : Query.read (tokensOf source) (endOf source) = .error error := by
    unfold Query.parse at h
    split at h
    next =>
      cases h
      cases hexpected
    next => exact h
  obtain ⟨before, token, after, stage, hscan, hreaches, hstep, -⟩ := exists_refused hread
  have hbefore : ∀ other ∈ before, other ∈ tokensOf source := by
    have htokens : tokensOf source = before ++ (token :: after).dropLast := by
      simpa [List.dropLast_append_of_ne_nil] using congrArg List.dropLast hscan
    intro other hother
    rw [htokens]
    exact List.mem_append_left _ hother
  have hphrase := Stage.phrase_of_step hstep hexpected
  refine ⟨before, token, after, stage.expected, hscan, (Stage.pointsAt_of_step hstep).span,
    stage.expected_ne_nil, fun others => ?_, fun alternative hmem => ?_⟩
  · rw [hphrase]
    exact Expectation.phrase_injective.eq_iff
  · exact hreaches.isLegal_iff hbefore hmem

/-- Behind the line speed nothing but the end of the query is expected, and it could have come. -/
theorem expected_lateSleep : ∃ before token after,
    scan "SELECT x FROM y RSPEED 1 RSLEEP 2" = before ++ token :: after ∧ token.span = ⟨25, 31⟩ ∧
      Expectation.endOfQuery.IsLegal before := by
  have herror : Query.parse "SELECT x FROM y RSPEED 1 RSLEEP 2" =
      .error ⟨.unexpectedToken (some "end of query") "RSLEEP", ⟨25, 31⟩⟩ := by decide +kernel
  obtain ⟨before, token, after, alternatives, hscan, hspan, -, hnamed, hlegal⟩ :=
    expected_could_follow herror rfl
  have hend : [Expectation.endOfQuery] = alternatives := (hnamed _).1 rfl
  exact ⟨before, token, after, hscan, hspan.symm, (hlegal _ (by simp [← hend])).2 fun _ => rfl⟩

/-- Behind the semicolon a condition is named as expected, but no condition may follow. -/
theorem expected_behindSemicolon :
    Query.parse "SELECT din1 FROM board; WHERE din1 = 1" =
      .error ⟨.unexpectedToken (some "WHERE, RSLEEP, RSPEED or end of query") "WHERE", ⟨24, 29⟩⟩ ∧
    Expectation.phrase [.keyword .where_, .keyword .rsleep, .keyword .rspeed, .endOfQuery] =
      "WHERE, RSLEEP, RSPEED or end of query" ∧
    ∃ before token after, scan "SELECT din1 FROM board; WHERE din1 = 1" = before ++ token :: after ∧
      token.span = ⟨24, 29⟩ ∧ ¬(Expectation.keyword .where_).IsLegal before := by
  refine ⟨by decide +kernel, by decide +kernel, ?_⟩
  have hreaches : Reaches .select ((tokensOf "SELECT din1 FROM board; WHERE din1 = 1").take 5)
      (.closed ⟨0, [⟨"din1", false, ⟨7, 11⟩⟩], ⟨"board", ⟨17, 22⟩⟩, none, none, none⟩) := by
    unfold Reaches
    decide +kernel
  have hscan : scan "SELECT din1 FROM board; WHERE din1 = 1" =
      (tokensOf "SELECT din1 FROM board; WHERE din1 = 1").take 5 ++
        ⟨.keyword .where_, "WHERE", ⟨24, 29⟩⟩ ::
        (scan "SELECT din1 FROM board; WHERE din1 = 1").drop 6 := by
    decide +kernel
  refine ⟨_, _, _, hscan, rfl, fun hlegal => ?_⟩
  have hsemicolon := hreaches.endsInSemicolon_iff.2 ⟨_, rfl⟩
  have hwhere := (hreaches.isLegal_iff (fun _ => List.mem_of_mem_take) (by decide)).1 hlegal
  cases hwhere hsemicolon

end PinQuery
