import Mathlib.Data.Nat.Find
import PinQuery.Proofs.Query.Alike
import PinQuery.Proofs.Query.Viability
import PinQuery.Proofs.Text.Cut

/-!
# Parentheses

The reader keeps the open parentheses on a stack, and its errors about parentheses speak of that
stack. This module says what they mean for the tokens of a source.

* `Balanced`: as many parentheses are closed as are opened, and never more up to any place.
  `IsClosedIn`: what stands behind an opening parenthesis closes it. Where more parentheses are
  closed than opened, one of them does (`isClosedIn_of_lt`).
* `LeavesOpen tokens spans`: the parentheses that tokens leave open, the innermost first. Counting
  them, `LeavesOpen.opens_eq`.
* `SpellsStage.leavesOpen`: **the stack of the reader holds just the parentheses that the tokens
  read so far leave open.** For this every phrase of the grammar is balanced (`Spells.balanced` and
  its siblings).
* `parenthesis_errors_exact`: which parenthesis an error names, and when.
-/

namespace PinQuery

/-! ## Balanced tokens -/

/-- The number of opening parentheses among some tokens. -/
def opens (tokens : List Token) : Nat := tokens.countP (·.kind = .leftParen)

/-- The number of closing parentheses among some tokens. -/
def closes (tokens : List Token) : Nat := tokens.countP (·.kind = .rightParen)

/-- As many parentheses are closed as are opened, and up to any place not more. -/
structure Balanced (tokens : List Token) : Prop where
  total : closes tokens = opens tokens
  initial : ∀ i, closes (tokens.take i) ≤ opens (tokens.take i)

/-- An opening parenthesis with these tokens behind it is closed: one of them is a closing
parenthesis, and those before that one are balanced. -/
def IsClosedIn (behind : List Token) : Prop :=
  ∃ inside closing rest, behind = inside ++ closing :: rest ∧ Balanced inside ∧
    closing.kind = .rightParen

/-- A token that is no parenthesis. -/
def Token.IsPlain (token : Token) : Prop := token.kind ≠ .leftParen ∧ token.kind ≠ .rightParen

section

variable {token opening closing : Token} {tokens more : List Token}

@[simp] theorem opens_nil : opens [] = 0 := rfl

@[simp] theorem closes_nil : closes [] = 0 := rfl

@[simp] theorem opens_append : opens (tokens ++ more) = opens tokens + opens more :=
  List.countP_append

@[simp] theorem closes_append : closes (tokens ++ more) = closes tokens + closes more :=
  List.countP_append

theorem opens_cons :
    opens (token :: tokens) = opens tokens + if token.kind = .leftParen then 1 else 0 := by
  simp [opens, List.countP_cons]

theorem closes_cons :
    closes (token :: tokens) = closes tokens + if token.kind = .rightParen then 1 else 0 := by
  simp [closes, List.countP_cons]

theorem opens_cons_of_leftParen (h : token.kind = .leftParen) :
    opens (token :: tokens) = opens tokens + 1 := by
  simp [opens_cons, h]

theorem closes_cons_of_leftParen (h : token.kind = .leftParen) :
    closes (token :: tokens) = closes tokens := by
  simp [closes_cons, h]

theorem opens_cons_of_rightParen (h : token.kind = .rightParen) :
    opens (token :: tokens) = opens tokens := by
  simp [opens_cons, h]

theorem closes_cons_of_rightParen (h : token.kind = .rightParen) :
    closes (token :: tokens) = closes tokens + 1 := by
  simp [closes_cons, h]

theorem opens_cons_of_isPlain (h : token.IsPlain) : opens (token :: tokens) = opens tokens := by
  simp [opens_cons, h.1]

theorem closes_cons_of_isPlain (h : token.IsPlain) : closes (token :: tokens) = closes tokens := by
  simp [closes_cons, h.2]

namespace Balanced

theorem nil : Balanced [] := ⟨rfl, by simp⟩

theorem append (h : Balanced tokens) (hmore : Balanced more) : Balanced (tokens ++ more) where
  total := by rw [closes_append, opens_append, h.total, hmore.total]
  initial i := by
    rw [List.take_append, closes_append, opens_append]
    exact Nat.add_le_add (h.initial i) (hmore.initial _)

theorem cons (hplain : token.IsPlain) (h : Balanced tokens) : Balanced (token :: tokens) where
  total := by rw [closes_cons_of_isPlain hplain, opens_cons_of_isPlain hplain, h.total]
  initial i := by
    cases i with
    | zero => simp
    | succ i =>
      rw [List.take_succ_cons, closes_cons_of_isPlain hplain, opens_cons_of_isPlain hplain]
      exact h.initial i

theorem single (hplain : token.IsPlain) : Balanced [token] := cons hplain nil

/-- Balanced tokens stay so between two parentheses. -/
theorem paren (hopening : opening.kind = .leftParen) (h : Balanced tokens)
    (hclosing : closing.kind = .rightParen) : Balanced (opening :: (tokens ++ [closing])) where
  total := by
    rw [closes_cons_of_leftParen hopening, opens_cons_of_leftParen hopening, closes_append,
      opens_append, closes_cons_of_rightParen hclosing, opens_cons_of_rightParen hclosing, h.total]
    rfl
  initial i := by
    cases i with
    | zero => simp
    | succ i =>
      have hinside := h.initial i
      have hlast : closes ([closing].take (i - tokens.length)) ≤ 1 :=
        calc closes ([closing].take (i - tokens.length))
            ≤ ([closing].take (i - tokens.length)).length := List.countP_le_length
          _ ≤ 1 := by rw [List.length_take]; exact Nat.min_le_right _ 1
      rw [List.take_succ_cons, List.take_append, closes_cons_of_leftParen hopening,
        opens_cons_of_leftParen hopening, closes_append, opens_append]
      omega

/-- Nothing is left over behind balanced tokens that would close a parenthesis before them. -/
theorem not_isClosedIn (h : Balanced tokens) : ¬IsClosedIn tokens := by
  rintro ⟨inside, closing, rest, rfl, hinside, hclosing⟩
  have hinitial := h.initial (inside.length + 1)
  rw [List.append_cons, List.take_left' (by simp), closes_append, opens_append,
    closes_cons_of_rightParen hclosing, opens_cons_of_rightParen hclosing,
    hinside.total] at hinitial
  exact Nat.not_succ_le_self _ hinitial

end Balanced

/-- Where more parentheses are closed than opened, the first one that is too many closes a
parenthesis before all of them. -/
theorem isClosedIn_of_lt (h : opens tokens < closes tokens) : IsClosedIn tokens := by
  have hexists : ∃ i, opens (tokens.take i) < closes (tokens.take i) :=
    ⟨tokens.length, by rwa [List.take_length]⟩
  obtain ⟨i, hi, hleast⟩ : ∃ i, opens (tokens.take i) < closes (tokens.take i) ∧
      ∀ j < i, closes (tokens.take j) ≤ opens (tokens.take j) :=
    ⟨Nat.find hexists, Nat.find_spec hexists, fun j hj => Nat.not_lt.1 (Nat.find_min hexists hj)⟩
  cases i with
  | zero => simp at hi
  | succ k =>
    have hk := hleast k (Nat.lt_succ_self k)
    have hlength : k < tokens.length := by
      by_contra hle
      rw [List.take_of_length_le (by omega)] at hi hk
      omega
    have htake := List.take_succ_eq_append_getElem hlength
    rw [htake, closes_append, opens_append] at hi
    simp only [closes_cons, opens_cons, closes_nil, opens_nil] at hi
    -- only a closing parenthesis can tip the balance
    have hkind : tokens[k].kind = .rightParen := by
      by_contra hkind
      rw [if_neg hkind] at hi
      omega
    have htotal : closes (tokens.take k) = opens (tokens.take k) := by
      rw [if_pos hkind] at hi
      omega
    refine ⟨tokens.take k, tokens[k], tokens.drop (k + 1), ?_, ⟨htotal, fun j => ?_⟩, hkind⟩
    · rw [List.append_cons, ← htake, List.take_append_drop]
    · rw [List.take_take]
      exact hleast _ (Nat.lt_succ_of_le (Nat.min_le_right j k))

/-- Every parenthesis that is opened in balanced tokens is closed in them. -/
theorem Balanced.isClosedIn (h : Balanced (tokens ++ opening :: more))
    (hopening : opening.kind = .leftParen) : IsClosedIn more := by
  have htotal := h.total
  have hinitial := h.initial tokens.length
  rw [closes_append, opens_append, closes_cons_of_leftParen hopening,
    opens_cons_of_leftParen hopening] at htotal
  rw [List.take_left] at hinitial
  exact isClosedIn_of_lt (by omega)

end

/-! ## Open parentheses -/

/-- An opening parenthesis that is the innermost one left open: those behind it are balanced, so
that nothing closes it, and every one that is opened behind it is closed. -/
structure IsInnermostOpen (opening : Token) (behind : List Token) : Prop where
  kind : opening.kind = .leftParen
  balanced : Balanced behind
  not_closed : ¬IsClosedIn behind
  later_closed : ∀ front other rest, behind = front ++ other :: rest → other.kind = .leftParen →
    IsClosedIn rest

theorem isInnermostOpen_of_balanced {opening : Token} {behind : List Token}
    (hkind : opening.kind = .leftParen) (h : Balanced behind) : IsInnermostOpen opening behind :=
  ⟨hkind, h, h.not_isClosedIn, fun _ _ _ hbehind hother => (hbehind ▸ h).isClosedIn hother⟩

/-- The spans of the parentheses that tokens leave open, the innermost first. -/
inductive LeavesOpen : List Token → List Span → Prop
  | none {tokens : List Token} (h : Balanced tokens) : LeavesOpen tokens []
  | opened {before behind : List Token} {opening : Token} {spans : List Span}
      (hbefore : LeavesOpen before spans) (hkind : opening.kind = .leftParen)
      (hbehind : Balanced behind) :
      LeavesOpen (before ++ opening :: behind) (opening.span :: spans)

namespace LeavesOpen

variable {tokens front more : List Token} {spans : List Span}

theorem append (h : LeavesOpen tokens spans) (hmore : Balanced more) :
    LeavesOpen (tokens ++ more) spans := by
  cases h with
  | none h => exact .none (h.append hmore)
  | opened hbefore hkind hbehind =>
    rw [List.append_assoc]
    exact .opened hbefore hkind (hbehind.append hmore)

theorem prepend (hfront : Balanced front) (h : LeavesOpen tokens spans) :
    LeavesOpen (front ++ tokens) spans := by
  induction h with
  | none h => exact .none (hfront.append h)
  | opened _ hkind hbehind ih =>
    rw [← List.append_assoc]
    exact .opened ih hkind hbehind

/-- As many parentheses are left open as are opened and not closed. -/
theorem opens_eq (h : LeavesOpen tokens spans) : opens tokens = closes tokens + spans.length := by
  induction h with
  | none h => exact h.total.symm
  | opened _ hkind hbehind ih =>
    rw [opens_append, closes_append, opens_cons_of_leftParen hkind, closes_cons_of_leftParen hkind,
      hbehind.total, ih, List.length_cons]
    omega

end LeavesOpen

/-! ## Phrases are balanced -/

section

variable {token : Token} {tokens : List Token}

theorem Token.isPlain_of_kind {kind : Kind} (h : token.kind = kind)
    (hkind : kind ≠ .leftParen ∧ kind ≠ .rightParen) : token.IsPlain := by
  rwa [IsPlain, h]

theorem Token.isPlain_of_name? {name : Name} (h : token.name? = some name) : token.IsPlain := by
  rcases Token.kind_of_name? h with h | h <;> exact isPlain_of_kind h (by simp)

theorem Token.isPlain_of_sign? {sign : Sign} (h : token.sign? = some sign) : token.IsPlain := by
  rcases Token.kind_of_sign? h with h | h <;> exact isPlain_of_kind h (by simp)

theorem DenotesComparison.isPlain {op : Comparison} (h : DenotesComparison token.kind op) :
    token.IsPlain := by
  generalize hkind : token.kind = kind at h
  cases h <;> exact Token.isPlain_of_kind hkind (by simp)

theorem SpellsSign.balanced {sign : Option Sign} (h : SpellsSign tokens sign) :
    Balanced tokens := by
  cases h with
  | absent => exact .nil
  | present hsign => exact .single (Token.isPlain_of_sign? hsign)

theorem SpellsNumber.balanced {literal : Literal} (h : SpellsNumber tokens literal) :
    Balanced tokens := by
  obtain ⟨signs, sign, token, rfl, hsign, hkind, -⟩ := spellsNumber_iff.1 h
  exact hsign.balanced.append (.single (Token.isPlain_of_kind hkind (by simp)))

theorem SpellsOperand.balanced {e : Expr} (h : SpellsOperand tokens e) : Balanced tokens := by
  cases h with
  | name hname => exact .single (Token.isPlain_of_name? hname)
  | number h => exact h.balanced

/-- The tokens of a condition are balanced: parentheses come in pairs only. -/
theorem Spells.balanced {level : Level} {e : Expr} (h : Spells level tokens e) :
    Balanced tokens := by
  induction h with
  | conjunction _ ih => exact ih
  | factor _ ih => exact ih
  | or _ hkind _ ihleft ihright | and _ hkind _ ihleft ihright =>
    exact ihleft.append (.cons (Token.isPlain_of_kind hkind (by simp)) ihright)
  | not hkind _ ih => exact .cons (Token.isPlain_of_kind hkind (by simp)) ih
  | paren hopening _ hclosing ih => exact .paren hopening ih hclosing
  | comparison hleft hop hright => exact hleft.balanced.append (.cons hop.isPlain hright.balanced)

theorem SpellsColumns.balanced {names : List Name} (h : SpellsColumns tokens names) :
    Balanced tokens := by
  induction h with
  | one hname => exact .single (Token.isPlain_of_name? hname)
  | more _ hcomma hname ih =>
    exact ih.append (.cons (Token.isPlain_of_kind hcomma (by simp))
      (.single (Token.isPlain_of_name? hname)))

theorem SpellsCondition.balanced {condition : Option Expr} (h : SpellsCondition tokens condition) :
    Balanced tokens := by
  cases h with
  | absent => exact .nil
  | present hkind h => exact .cons (Token.isPlain_of_kind hkind (by simp)) h.balanced

theorem SpellsSetting.balanced {keyword : Keyword} {setting : Option Literal}
    (h : SpellsSetting keyword tokens setting) : Balanced tokens := by
  cases h with
  | absent => exact .nil
  | present hkind h => exact .cons (Token.isPlain_of_kind hkind (by simp)) h.balanced

theorem SpellsDraft.balanced {draft : Draft} (h : SpellsDraft tokens draft) : Balanced tokens := by
  cases h with
  | clauses hselect hcolumns hfrom htarget hcondition hsleep hspeed =>
    refine .cons (Token.isPlain_of_kind hselect (by simp)) (hcolumns.balanced.append ?_)
    refine .cons (Token.isPlain_of_kind hfrom (by simp)) (.cons (Token.isPlain_of_name? htarget) ?_)
    exact hcondition.balanced.append (hsleep.balanced.append hspeed.balanced)

/-- The tokens of a query are balanced. -/
theorem SpellsQuery.balanced {query : Query} {final : Token}
    (h : SpellsQuery (tokens ++ [final]) query) : Balanced tokens := by
  generalize htokens : tokens ++ [final] = all at h
  cases h with
  | query hdraft hsemicolon =>
    rw [(List.append_inj' htokens rfl).1]
    refine hdraft.balanced.append ?_
    cases hsemicolon with
    | absent => exact .nil
    | present hkind => exact .single (Token.isPlain_of_kind hkind (by simp))

/-! ## The stack of the reader -/

theorem SpellsLeft.balanced {level : Level} {keyword : Keyword} {left : Option Expr}
    (h : SpellsLeft level keyword tokens left) : Balanced tokens := by
  cases h with
  | absent => exact .nil
  | present h hkind => exact h.balanced.append (.single (Token.isPlain_of_kind hkind (by simp)))

theorem SpellsNegations.balanced {starts : List Nat} (h : SpellsNegations tokens starts) :
    Balanced tokens := by
  induction h with
  | nil => exact .nil
  | snoc _ hkind ih => exact ih.append (.single (Token.isPlain_of_kind hkind (by simp)))

theorem SpellsPending.balanced {pending : Pending} (h : SpellsPending tokens pending) :
    Balanced tokens := by
  cases h with
  | pending hdisjunct hconjunct hnegations =>
    exact (hdisjunct.balanced.append hconjunct.balanced).append hnegations.balanced

theorem SpellsPlace.balanced {place : Place} (h : SpellsPlace tokens place) :
    Balanced tokens := by
  cases h with
  | predicate h => exact h.balanced
  | leftNumber h hsign => exact h.balanced.append (.single (Token.isPlain_of_sign? hsign))
  | operator h hleft => exact h.balanced.append hleft.balanced
  | rightOperand h hleft hop =>
    exact (h.balanced.append hleft.balanced).append (.single hop.isPlain)
  | rightNumber h hleft hop hsign =>
    exact (h.balanced.append hleft.balanced).append
      (.cons hop.isPlain (.single (Token.isPlain_of_sign? hsign)))
  | ended hdisjunct h => exact hdisjunct.balanced.append h.balanced

theorem SpellsParens.leavesOpen {parens : List Paren} (h : SpellsParens tokens parens) :
    LeavesOpen tokens (parens.map Paren.span) := by
  induction h with
  | nil => exact .none .nil
  | cons _ h hkind hspan ih =>
    rw [List.map_cons, ← hspan]
    exact .opened (ih.append h.balanced) hkind .nil

/-- **The stack of the reader holds just the parentheses that the tokens read so far leave open**,
at every stage it can reach. -/
theorem SpellsStage.leavesOpen {stage : Stage} (h : SpellsStage tokens stage) :
    LeavesOpen tokens (stage.parens.map Paren.span) := by
  cases h with
  | select => exact .none .nil
  | firstColumn hselect => exact .none (.single (Token.isPlain_of_kind hselect (by simp)))
  | nextColumn hselect hcolumns hkind | target hselect hcolumns hkind =>
    refine .none (.cons (Token.isPlain_of_kind hselect (by simp)) (hcolumns.balanced.append ?_))
    exact .single (Token.isPlain_of_kind hkind (by simp))
  | columnEnd hselect hcolumns =>
    exact .none (.cons (Token.isPlain_of_kind hselect (by simp)) hcolumns.balanced)
  | clauses h => exact .none h.balanced
  | condition h _ _ _ hkind hplace =>
    obtain ⟨outers, inners, rfl, houter, hplace⟩ := hplace
    rw [List.append_cons]
    refine .prepend (h.balanced.append (.single (Token.isPlain_of_kind hkind (by simp)))) ?_
    exact houter.leavesOpen.append hplace.balanced
  | sleep h _ _ hkind hsign | speed h _ hkind hsign =>
    exact .none (h.balanced.append (.cons (Token.isPlain_of_kind hkind (by simp)) hsign.balanced))
  | closed h hkind =>
    exact .none (h.balanced.append (.single (Token.isPlain_of_kind hkind (by simp))))

end

/-! ## Errors -/

section

variable {source : String} {stage : Stage} {closing : Token} {error : SyntaxError}

/-- A closing parenthesis is never taken for a number that does not fit. -/
theorem Stage.next?_ne_error_of_rightParen (stage : Stage) (hkind : closing.kind = .rightParen) :
    stage.next? closing ≠ some (.error error) := by
  have hname : closing.name? = none := by simp [Token.name?, hkind]
  have hsign : closing.sign? = none := by simp [Token.sign?, hkind]
  cases stage with
  | select => simp [next?, hkind]
  | column start columns => simp [next?, hname]
  | columnEnd start columns => simp [next?, hkind]
  | target start columns => simp [next?, hname]
  | clauses draft => simp [next?]
  | condition draft parens place =>
    cases place with
    | predicate pending => simp [next?, Place.next?, Pending.next?, hkind, hname, hsign]
    | leftNumber pending sign => simp [next?, Place.next?, hkind]
    | operator pending left => simp [next?, Place.next?]
    | rightOperand pending left op => simp [next?, Place.next?, hkind, hname, hsign]
    | rightNumber pending left op sign => simp [next?, Place.next?, hkind]
    | ended disjunct value => cases parens <;> simp [next?, Place.next?, hkind]
  | sleep draft sign => cases sign <;> simp [next?, hkind, hsign]
  | speed draft sign => cases sign <;> simp [next?, hkind, hsign]
  | closed draft => simp [next?]

/-- A closing parenthesis that cannot stand at a stage is refused in one way, whatever the stage. -/
theorem Stage.eq_unexpected_of_rightParen (hkind : closing.kind = .rightParen)
    (h : stage.step closing = .error error) : error = stage.unexpected closing := by
  unfold step at h
  split at h
  next result hnext =>
    rw [h] at hnext
    exact absurd hnext (stage.next?_ne_error_of_rightParen hkind)
  next =>
    cases h
    unfold refuse
    split <;> simp_all

/-- A parenthesis is reported as not closed at the end of the query only, and it is the one on top
of the stack. -/
theorem Stage.exists_paren_of_unclosed {token : Token} {opening : Span}
    (h : stage.step token = .error error) (hcause : error.cause = .unclosedParen opening) :
    token.kind = .endOfQuery ∧ ∃ parens, stage.parens.map Paren.span = opening :: parens := by
  have hunexpected : (stage.unexpected token).cause ≠ .unclosedParen opening := by
    unfold unexpected
    split <;> simp
  unfold step at h
  split at h
  next hnext =>
    rw [h] at hnext
    rw [eq_invalidNumber_of_next? hnext] at hcause
    cases hcause
  next =>
    cases h
    unfold refuse at hcause
    split at hcause
    next => exact absurd hcause hunexpected
    next => exact absurd hcause hunexpected
    next => cases hcause
    next _ parens _ _ hkind _ =>
      cases hcause
      exact ⟨hkind, parens.map Paren.span, rfl⟩
    next => exact absurd hcause hunexpected

/-- Where a source without faults is refused: a token with its stage, and the tokens before it lead
to that stage. -/
theorem exists_refused_of_parse (hfaults : faultsOf source = [])
    (h : Query.parse source = .error error) : ∃ before token after stage,
      scan source = before ++ token :: after ∧ SpellsStage before stage ∧
      stage.step token = .error error := by
  have hread : Query.read (tokensOf source) (endOf source) = .error error := by
    rwa [Query.parse, hfaults] at h
  obtain ⟨before, token, after, stage, hscan, hreaches, hstep, -⟩ := exists_refused hread
  exact ⟨before, token, after, stage, hscan, SpellsStage.select.run hreaches, hstep⟩

/-- The tokens of a source begin one behind the other, the end of the query included. -/
theorem pairwise_start_scan (source : String) :
    (scan source).Pairwise fun token other => token.span.start < other.span.start := by
  have hspan {token : Token} {piece : Scan.Piece} (h : piece.token? = some token) :
      token.span = piece.span := by
    obtain ⟨kind, -, rfl⟩ := Option.map_eq_some_iff.1 h
    rfl
  refine List.pairwise_append.2 ⟨?_, List.pairwise_singleton _ _, fun token hmem final hfinal => ?_⟩
  · refine (Scan.pairwise_piecesFrom 0 source.toList).filterMap _ fun piece other hlt => ?_
    intro token htoken token' htoken'
    rwa [hspan htoken, hspan htoken']
  · obtain ⟨piece, hpiece, htoken⟩ := List.mem_filterMap.1 hmem
    rw [List.mem_singleton.1 hfinal, hspan htoken]
    calc piece.span.start < piece.span.stop :=
          Scan.start_lt_stop_of_mem_piecesFrom 0 source.toList piece hpiece
      _ ≤ endOf source := (Text.isBoundary_of_slice? (Scan.slice?_of_mem_pieces hpiece)).2.2.2

/-- A token of a source is found by its span. -/
theorem before_eq_of_span_eq {before before' after after' : List Token} {token token' : Token}
    (h : scan source = before ++ token :: after) (h' : scan source = before' ++ token' :: after')
    (hspan : token.span = token'.span) : before = before' ∧ token = token' := by
  have hpairwise := pairwise_start_scan source
  -- if one of the two stood behind the other, it would begin behind it
  rcases List.append_eq_append_iff.1 (h.symm.trans h') with
    ⟨between, rfl, hbetween⟩ | ⟨between, rfl, hbetween⟩
  · cases between with
    | nil => simp_all
    | cons other between =>
      obtain ⟨rfl, rfl⟩ := List.cons.inj hbetween
      rw [h, List.pairwise_append, List.pairwise_cons] at hpairwise
      have hlt := hpairwise.2.1.1 token' (by simp)
      rw [hspan] at hlt
      exact absurd hlt (Nat.lt_irrefl _)
  · cases between with
    | nil => simp_all
    | cons other between =>
      obtain ⟨rfl, rfl⟩ := List.cons.inj hbetween
      rw [h', List.pairwise_append, List.pairwise_cons] at hpairwise
      have hlt := hpairwise.2.1.1 token (by simp)
      rw [hspan] at hlt
      exact absurd hlt (Nat.lt_irrefl _)

/-- The end of the query stands behind all other tokens. -/
theorem eq_tokensOf_of_endOfQuery {before after : List Token} {token : Token}
    (h : scan source = before ++ token :: after) (hkind : token.kind = .endOfQuery) :
    before = tokensOf source ∧ token = .endAt (endOf source) := by
  rcases List.eq_nil_or_concat after with rfl | ⟨rest, last, rfl⟩
  · obtain ⟨hbefore, htoken⟩ := List.append_inj' h rfl
    exact ⟨hbefore.symm, (List.singleton_inj.1 htoken).symm⟩
  · rw [List.concat_eq_append, ← List.cons_append, ← List.append_assoc] at h
    have hmem : token ∈ tokensOf source := by simp [(List.append_inj' h rfl).1]
    exact absurd hkind (isLexeme_of_mem_tokensOf hmem).ne_endOfQuery

end

/-- **Errors about parentheses name the right ones.** A parenthesis is reported as not closed at the
end of the query, and it is the innermost one that is left open. A closing parenthesis that cannot
stand where it does is reported as unmatched just when as many parentheses are closed as are opened
before it, and as an unexpected token otherwise. The parentheses of a query that can be read are
balanced. -/
theorem parenthesis_errors_exact {source : String} (hfaults : faultsOf source = []) :
    (∀ span opening, Query.parse source = .error ⟨.unclosedParen opening, span⟩ →
      span = .empty (endOf source) ∧ ∃ before paren behind,
        tokensOf source = before ++ paren :: behind ∧ paren.span = opening ∧
        IsInnermostOpen paren behind) ∧
    (∀ error before closing behind, Query.parse source = .error error →
      tokensOf source = before ++ closing :: behind → closing.kind = .rightParen →
      error.span = closing.span →
        (error.cause = .unmatchedClosing ↔ closes before = opens before) ∧
        (closes before ≠ opens before →
          ∃ expected, error.cause = .unexpectedToken expected closing.text)) ∧
    (∀ query, Query.parse source = .ok query → Balanced (tokensOf source)) := by
  refine ⟨?_, ?_, fun query hquery => (parse_eq_ok_iff.1 hquery).2.balanced⟩
  · intro span opening herror
    obtain ⟨before, token, after, stage, hscan, hstage, hstep⟩ :=
      exists_refused_of_parse hfaults herror
    obtain ⟨hend, parens, hparens⟩ := Stage.exists_paren_of_unclosed hstep rfl
    obtain ⟨rfl, rfl⟩ := eq_tokensOf_of_endOfQuery hscan hend
    refine ⟨(Stage.pointsAt_of_step hstep).span, ?_⟩
    have hopen := hstage.leavesOpen
    rw [hparens] at hopen
    generalize tokensOf source = tokens at hopen
    cases hopen with
    | @opened before behind paren _ _ hkind hbehind =>
      exact ⟨before, paren, behind, rfl, rfl, isInnermostOpen_of_balanced hkind hbehind⟩
  · intro error before closing behind herror htokens hkind hspan
    obtain ⟨before', token, after, stage, hscan, hstage, hstep⟩ :=
      exists_refused_of_parse hfaults herror
    have hscan' : scan source = before ++ closing :: (behind ++ [.endAt (endOf source)]) := by
      simp [scan, htokens]
    obtain ⟨rfl, rfl⟩ := before_eq_of_span_eq hscan hscan'
      ((Stage.pointsAt_of_step hstep).span.symm.trans hspan)
    have hcount := hstage.leavesOpen.opens_eq
    rw [List.length_map] at hcount
    rw [Stage.eq_unexpected_of_rightParen hkind hstep]
    by_cases hparens : stage.parens = []
    · rw [Stage.unexpected_of_closing hkind hparens]
      have hequal : closes before' = opens before' := by simp [hcount, hparens]
      exact ⟨iff_of_true rfl hequal, fun hne => absurd hequal hne⟩
    · rw [Stage.unexpected_of_other (by simp [hkind]) fun _ => hparens]
      have hpos := List.length_pos_iff.2 hparens
      exact ⟨iff_of_false (by simp) (by omega), fun _ => ⟨_, rfl⟩⟩

/-- Four parentheses are opened and two of them closed. -/
def twoOpenSource : String := "SELECT din1 FROM board WHERE ((din1 = 1) AND (NOT (din2 = 0)"

/-- A parenthesis is closed too early. -/
def earlyClosingSource : String := "SELECT din1 FROM board WHERE (din1 = 1 AND)"

/-- The third of the four parentheses is named. The one that is closed too early is an unexpected
token, since one more is opened than closed before it. -/
theorem parenthesis_errors_twoOpenSource :
    faultsOf twoOpenSource = [] ∧
    Query.parse twoOpenSource = .error ⟨.unclosedParen ⟨45, 46⟩, .empty 60⟩ ∧
    (∃ before paren behind, tokensOf twoOpenSource = before ++ paren :: behind ∧
      paren.span = ⟨45, 46⟩ ∧ IsInnermostOpen paren behind) ∧
    faultsOf earlyClosingSource = [] ∧
    ∃ error, Query.parse earlyClosingSource = .error error ∧ error.span = ⟨42, 43⟩ ∧
      error.cause ≠ .unmatchedClosing ∧
      ∃ expected, error.cause = .unexpectedToken expected ")" := by
  have hfaults : faultsOf twoOpenSource = [] := by decide +kernel
  have hopen : Query.parse twoOpenSource = .error ⟨.unclosedParen ⟨45, 46⟩, .empty 60⟩ := by
    decide +kernel
  have hfaults' : faultsOf earlyClosingSource = [] := by decide +kernel
  have hearly : Query.parse earlyClosingSource =
      .error ⟨.unexpectedToken (some "condition") ")", ⟨42, 43⟩⟩ := by decide +kernel
  have htokens : tokensOf earlyClosingSource =
      (tokensOf earlyClosingSource).take 10 ++ ⟨.rightParen, ")", ⟨42, 43⟩⟩ :: [] := by
    decide +kernel
  have hcounts : closes ((tokensOf earlyClosingSource).take 10) = 0 ∧
      opens ((tokensOf earlyClosingSource).take 10) = 1 := by decide +kernel
  obtain ⟨hiff, hother⟩ :=
    (parenthesis_errors_exact hfaults').2.1 _ _ _ _ hearly htokens rfl rfl
  refine ⟨hfaults, hopen, ((parenthesis_errors_exact hfaults).1 _ _ hopen).2, hfaults', _, hearly,
    rfl, ?_, hother (by omega)⟩
  rw [Ne, hiff]
  omega

end PinQuery
