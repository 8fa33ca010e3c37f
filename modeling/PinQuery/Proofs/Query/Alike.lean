import Mathlib.Data.List.Forall2
import Mathlib.Data.Option.Basic
import Mathlib.Logic.Relation
import PinQuery.Proofs.Query.Meaning

/-!
# Alike tokens are read alike

Of a token the reader looks at its kind, and further only at the name it stands for, the text of a
numeral and the place. So if two sources have the same tokens up to names and places, what the
reader makes of them is the same up to names and places.

* Everything here is relative to a relation `N` between names and a relation `S` between places.
  `Expr.Alike N` and `Query.Alike N` relate trees of the same shape with the same numbers whose names
  are related; the places of nodes are not looked at.
* `Token.Alike N S` relates tokens, `Stage.Alike N S` what the reader remembers of them,
  `SyntaxError.Alike S` errors that say the same about related places, and `Agree` results.
* `Stage.Alike.step` is about one more token, `Stage.Alike.run` about many, `read_agree` about the
  tokens of a query, and `parse_agree` about sources.
-/

namespace PinQuery

open Text

/-! ## Trees with related names -/

/-- Literals of one value. -/
def Literal.Alike (literal literal' : Literal) : Prop := literal'.value = literal.value

/-- A name as the target of a query. -/
def Name.asTarget (name : Name) : TargetName := ⟨name.text, name.span⟩

section

variable (N : Name → Name → Prop)

/-- Conditions of the same shape and with the same numbers, whose names are related. -/
inductive Expr.Alike : Expr → Expr → Prop
  | column {name name' : Name} (h : N name name') : Alike (.column name) (.column name')
  | literal {literal literal' : Literal} (h : literal.Alike literal') :
      Alike (.literal literal) (.literal literal')
  | comparison {op : Comparison} {left left' right right' : Expr} {span span' : Span}
      (hleft : Alike left left') (hright : Alike right right') :
      Alike (.comparison op left right span) (.comparison op left' right' span')
  | logical {op : Connective} {left left' right right' : Expr} {span span' : Span}
      (hleft : Alike left left') (hright : Alike right right') :
      Alike (.logical op left right span) (.logical op left' right' span')
  | negation {inner inner' : Expr} {span span' : Span} (h : Alike inner inner') :
      Alike (.negation inner span) (.negation inner' span')

/-- Queries with the same clauses and numbers, whose names are related. -/
structure Query.Alike (query query' : Query) : Prop where
  columns : List.Forall₂ N query.columns query'.columns
  target : Relation.Map N Name.asTarget Name.asTarget query.target query'.target
  condition : Option.Rel (Expr.Alike N) query.condition query'.condition
  sleep : Option.Rel Literal.Alike query.sleep query'.sleep
  speed : Option.Rel Literal.Alike query.speed query'.speed

/-- Drafts of related queries. -/
def Draft.Alike (draft draft' : Draft) : Prop := (draft.query 0).Alike N (draft'.query 0)

/-! ## Related stages -/

/-- One sign. -/
def Sign.Alike (sign sign' : Sign) : Prop := sign'.negative = sign.negative

/-- Related operands to the left of a predicate, behind as many negations. -/
structure Pending.Alike (pending pending' : Pending) : Prop where
  disjunct : Option.Rel (Expr.Alike N) pending.disjunct pending'.disjunct
  conjunct : Option.Rel (Expr.Alike N) pending.conjunct pending'.conjunct
  negations : pending'.negations.length = pending.negations.length

/-- One place inside related conditions. -/
inductive Place.Alike : Place → Place → Prop
  | predicate {pending pending' : Pending} (h : pending.Alike N pending') :
      Alike (.predicate pending) (.predicate pending')
  | leftNumber {pending pending' : Pending} {sign sign' : Sign} (h : pending.Alike N pending')
      (hsign : sign.Alike sign') : Alike (.leftNumber pending sign) (.leftNumber pending' sign')
  | operator {pending pending' : Pending} {left left' : Expr} (h : pending.Alike N pending')
      (hleft : left.Alike N left') : Alike (.operator pending left) (.operator pending' left')
  | rightOperand {pending pending' : Pending} {left left' : Expr} {op : Comparison}
      (h : pending.Alike N pending') (hleft : left.Alike N left') :
      Alike (.rightOperand pending left op) (.rightOperand pending' left' op)
  | rightNumber {pending pending' : Pending} {left left' : Expr} {op : Comparison} {sign sign' : Sign}
      (h : pending.Alike N pending') (hleft : left.Alike N left') (hsign : sign.Alike sign') :
      Alike (.rightNumber pending left op sign) (.rightNumber pending' left' op sign')
  | ended {disjunct disjunct' : Option Expr} {value value' : Expr}
      (hdisjunct : Option.Rel (Expr.Alike N) disjunct disjunct') (hvalue : value.Alike N value') :
      Alike (.ended disjunct value) (.ended disjunct' value')

variable (S : Span → Span → Prop)

/-- Open parentheses with related spans, and with related operands to their left. -/
structure Paren.Alike (paren paren' : Paren) : Prop where
  span : S paren.span paren'.span
  outer : paren.outer.Alike N paren'.outer

/-- Stages that remember the same, up to names and places. -/
inductive Stage.Alike : Stage → Stage → Prop
  | select : Alike .select .select
  | column {start start' : Nat} {columns columns' : List Name} (h : List.Forall₂ N columns columns') :
      Alike (.column start columns) (.column start' columns')
  | columnEnd {start start' : Nat} {columns columns' : List Name}
      (h : List.Forall₂ N columns columns') :
      Alike (.columnEnd start columns) (.columnEnd start' columns')
  | target {start start' : Nat} {columns columns' : List Name} (h : List.Forall₂ N columns columns') :
      Alike (.target start columns) (.target start' columns')
  | clauses {draft draft' : Draft} (h : draft.Alike N draft') :
      Alike (.clauses draft) (.clauses draft')
  | condition {draft draft' : Draft} {parens parens' : List Paren} {place place' : Place}
      (h : draft.Alike N draft') (hparens : List.Forall₂ (Paren.Alike N S) parens parens')
      (hplace : place.Alike N place') :
      Alike (.condition draft parens place) (.condition draft' parens' place')
  | sleep {draft draft' : Draft} {sign sign' : Option Sign} (h : draft.Alike N draft')
      (hsign : Option.Rel Sign.Alike sign sign') : Alike (.sleep draft sign) (.sleep draft' sign')
  | speed {draft draft' : Draft} {sign sign' : Option Sign} (h : draft.Alike N draft')
      (hsign : Option.Rel Sign.Alike sign sign') : Alike (.speed draft sign) (.speed draft' sign')
  | closed {draft draft' : Draft} (h : draft.Alike N draft') : Alike (.closed draft) (.closed draft')

/-! ## Related tokens and results -/

/-- Tokens that stand for related names, or have the same kind and, as numbers, the same text. -/
inductive Token.Alike (token token' : Token) : Prop
  | name {name name' : Name} (hspan : S token.span token'.span) (hname : token.name? = some name)
      (hname' : token'.name? = some name') (h : N name name')
  | other (hspan : S token.span token'.span) (hname : token.name? = none)
      (hkind : token'.kind = token.kind) (htext : token.kind = .number → token'.text = token.text)

/-- The text of what was expected instead. -/
def SyntaxCause.expected? : SyntaxCause → Option String
  | .unexpectedToken expected _ => expected
  | .unexpectedEnd expected => some expected
  | _ => none

/-- The parenthesis that is not closed. -/
def SyntaxCause.opening? : SyntaxCause → Option Span
  | .unclosedParen opening => some opening
  | _ => none

/-- Errors of one code at related places, which name the same as expected. -/
structure SyntaxError.Alike (error error' : SyntaxError) : Prop where
  code : error'.cause.code = error.cause.code
  expected : error'.cause.expected? = error.cause.expected?
  span : S error.span error'.span
  opening : Option.Rel S error.cause.opening? error'.cause.opening?

/-- Results that agree: related values, or errors that say the same about related places. -/
inductive Agree {α β : Type} (R : α → β → Prop) :
    Except SyntaxError α → Except SyntaxError β → Prop
  | ok {a : α} {b : β} (h : R a b) : Agree R (.ok a) (.ok b)
  | error {error error' : SyntaxError} (h : error.Alike S error') :
      Agree R (.error error) (.error error')

end

section

variable {N : Name → Name → Prop} {S : Span → Span → Prop}

theorem Agree.map {α α' β β' : Type} {R : α → β → Prop} {R' : α' → β' → Prop}
    {result : Except SyntaxError α} {result' : Except SyntaxError β} {f : α → α'} {g : β → β'}
    (h : Agree S R result result') (hfg : ∀ a b, R a b → R' (f a) (g b)) :
    Agree S R' (result.map f) (result'.map g) := by
  cases h with
  | ok h => exact .ok (hfg _ _ h)
  | error h => exact .error h

theorem isNone_eq_of_rel {α β : Type} {R : α → β → Prop} {a : Option α} {b : Option β}
    (h : Option.Rel R a b) : b.isNone = a.isNone := by
  cases h <;> rfl

theorem Token.name?_eq_none_of_kind {token token' : Token} (hkind : token'.kind = token.kind)
    (hname : token.name? = none) : token'.name? = none := by
  unfold name? at hname ⊢
  rw [hkind]
  split at hname
  next => cases hname
  next => cases hname
  next => rfl

/-- Tokens of one kind and text stand for one name, each at its own place. -/
theorem Token.name?_eq_map {token token' : Token} (hkind : token'.kind = token.kind)
    (htext : token'.text = token.text) :
    token'.name? = token.name?.map fun name => { name with span := token'.span } := by
  unfold name?
  rw [hkind, htext]
  split <;> rfl

/-- A token that keeps its kind, and its text unless it is a keyword, is alike if its name is. -/
theorem Token.alike_of_kept {token token' : Token} (hspan : S token.span token'.span)
    (hkind : token'.kind = token.kind)
    (htext : (∀ keyword, token.kind ≠ .keyword keyword) → token'.text = token.text)
    (hnames : ∀ name, token.name? = some name → N name { name with span := token'.span }) :
    token.Alike N S token' := by
  cases hname : token.name? with
  | none => exact .other hspan hname hkind fun hnumber => htext (by simp [hnumber])
  | some name =>
    have htext' : token'.text = token.text := by
      refine htext fun keyword => ?_
      rcases Token.kind_of_name? hname with hkind | hkind <;> simp [hkind]
    have hname' : token'.name? = some { name with span := token'.span } := by
      rw [Token.name?_eq_map hkind htext', hname]
      rfl
    exact .name hspan hname hname' (hnames name hname)

theorem Token.sign?_alike {token token' : Token} (hkind : token'.kind = token.kind) :
    Option.Rel Sign.Alike token.sign? token'.sign? := by
  unfold sign?
  rw [hkind]
  split
  next => exact .some rfl
  next => exact .some rfl
  next => exact .none

/-- Numerals of one text behind the same sign are the same number, or neither fits. -/
theorem Token.literal_agree {token token' : Token} {sign sign' : Option Sign}
    (hspan : S token.span token'.span) (htext : token'.text = token.text)
    (hsign : Option.Rel Sign.Alike sign sign') :
    Agree S Literal.Alike (token.literal sign) (token'.literal sign') := by
  unfold literal
  rw [htext]
  split
  next => exact .error ⟨rfl, rfl, hspan, .none⟩
  next value hvalue =>
    cases hsign with
    | none => exact .ok rfl
    | @some sign sign' h =>
      have hsame : sign'.negative = sign.negative := h
      refine .ok ?_
      simp only [Literal.Alike, hsame]

/-! ## Related pieces -/

theorem Expr.Alike.joinOptional (op : Connective) {left left' : Option Expr} {right right' : Expr}
    (hleft : Option.Rel (Expr.Alike N) left left') (hright : right.Alike N right') :
    (joinOptional op left right).Alike N (joinOptional op left' right') := by
  cases hleft with
  | none => exact hright
  | some hleft => exact .logical hleft hright

theorem Pending.Alike.complete {pending pending' : Pending} {predicate predicate' : Expr}
    (h : pending.Alike N pending') (hpredicate : predicate.Alike N predicate') (stop stop' : Nat) :
    (pending.complete predicate stop).Alike N (pending'.complete predicate' stop') := by
  refine .ended h.disjunct (.joinOptional .and h.conjunct ?_)
  have hnegations := h.negations
  generalize pending.negations = starts, pending'.negations = starts' at hnegations
  induction starts generalizing predicate predicate' starts' with
  | nil =>
    obtain rfl := List.length_eq_zero_iff.1 hnegations
    exact hpredicate
  | cons start starts ih =>
    obtain ⟨start', starts', rfl⟩ := List.exists_cons_of_length_eq_add_one hnegations
    exact ih (.negation hpredicate) starts' (Nat.succ.inj hnegations)

theorem Pending.Alike.compare {pending pending' : Pending} {left left' right right' : Expr}
    (h : pending.Alike N pending') (op : Comparison) (hleft : left.Alike N left')
    (hright : right.Alike N right') :
    (pending.compare op left right).Alike N (pending'.compare op left' right') :=
  h.complete (.comparison hleft hright) _ _

theorem Pending.Alike.empty : Pending.empty.Alike N .empty := ⟨.none, .none, rfl⟩

theorem Draft.Alike.next? {draft draft' : Draft} (h : draft.Alike N draft') (kind : Kind) :
    Option.Rel (Agree S (Stage.Alike N S)) ((draft.next? kind).map .ok)
      ((draft'.next? kind).map .ok) := by
  have hcondition : draft'.condition.isNone = draft.condition.isNone := isNone_eq_of_rel h.condition
  have hsleep : draft'.sleep.isNone = draft.sleep.isNone := isNone_eq_of_rel h.sleep
  have hspeed : draft'.speed.isNone = draft.speed.isNone := isNone_eq_of_rel h.speed
  unfold Draft.next?
  rw [hcondition, hsleep, hspeed]
  dsimp only
  split
  next =>
    split
    next => exact .some (.ok (.condition h .nil (.predicate .empty)))
    next => exact .none
  next =>
    split
    next => exact .some (.ok (.sleep h .none))
    next => exact .none
  next =>
    split
    next => exact .some (.ok (.speed h .none))
    next => exact .none
  next => exact .some (.ok (.closed h))
  next => exact .none

theorem Draft.next?_of_name {token : Token} {name : Name} (hname : token.name? = some name)
    (draft : Draft) : draft.next? token.kind = none := by
  rcases Token.kind_of_name? hname with hkind | hkind <;> rw [hkind] <;> rfl

/-! ## One more token -/

theorem Pending.next?_of_name {token : Token} {name : Name} (hname : token.name? = some name)
    (pending : Pending) (draft : Draft) (parens : List Paren) :
    pending.next? draft parens token =
      some (.ok (.condition draft parens (.operator pending (.column name)))) := by
  rcases Token.kind_of_name? hname with hkind | hkind <;> simp [next?, hkind, hname]

theorem Pending.Alike.next? {pending pending' : Pending} {draft draft' : Draft}
    {parens parens' : List Paren} {token token' : Token} (h : pending.Alike N pending')
    (hdraft : draft.Alike N draft') (hparens : List.Forall₂ (Paren.Alike N S) parens parens')
    (htoken : token.Alike N S token') :
    Option.Rel (Agree S (Stage.Alike N S)) (pending.next? draft parens token)
      (pending'.next? draft' parens' token') := by
  cases htoken with
  | name hspan hname hname' hnames =>
    rw [next?_of_name hname, next?_of_name hname']
    exact .some (.ok (.condition hdraft hparens (.operator h (.column hnames))))
  | other hspan hname hkind htext =>
    have hsigns := Token.sign?_alike hkind
    unfold Pending.next?
    rw [hkind, hname, Token.name?_eq_none_of_kind hkind hname]
    split
    next =>
      refine .some (.ok (.condition hdraft hparens (.predicate ⟨h.disjunct, h.conjunct, ?_⟩)))
      exact congrArg Nat.succ h.negations
    next => exact .some (.ok (.condition hdraft (.cons ⟨hspan, h⟩ hparens) (.predicate .empty)))
    next hnumber =>
      refine .some ((Token.literal_agree hspan (htext hnumber) .none).map fun _ _ hliteral => ?_)
      exact .condition hdraft hparens (.operator h (.literal hliteral))
    next =>
      generalize token.sign? = sign, token'.sign? = sign' at hsigns
      cases hsigns with
      | some hsign => exact .some (.ok (.condition hdraft hparens (.leftNumber h hsign)))
      | none => exact .none

/-- Inside a condition, a name is read as an operand or not at all. -/
theorem Place.next?_of_name {token : Token} {name : Name} (hname : token.name? = some name)
    (place : Place) (draft : Draft) (parens : List Paren) :
    place.next? draft parens token = match place with
      | .predicate pending =>
        some (.ok (.condition draft parens (.operator pending (.column name))))
      | .rightOperand pending left op =>
        some (.ok (.condition draft parens (pending.compare op left (.column name))))
      | _ => none := by
  cases place with
  | predicate pending => exact Pending.next?_of_name hname pending draft parens
  | leftNumber | operator | rightOperand | rightNumber =>
    rcases Token.kind_of_name? hname with hkind | hkind <;>
      simp [next?, hkind, hname, Kind.comparison?]
  | ended disjunct value =>
    have hdraft := Draft.next?_of_name hname
    rcases Token.kind_of_name? hname with hkind | hkind <;> rw [hkind] at hdraft <;>
      cases parens <;> simp [next?, hkind, hdraft]

theorem Place.next?_ended_cons {token : Token} (hand : token.kind ≠ .keyword .and)
    (hor : token.kind ≠ .keyword .or) (hclosing : token.kind ≠ .rightParen)
    (disjunct : Option Expr) (value : Expr) (draft : Draft) (paren : Paren) (parens : List Paren) :
    (Place.ended disjunct value).next? draft (paren :: parens) token = none := by
  simp only [Place.next?]
  split
  next h => exact absurd h hand
  next h => exact absurd h hor
  next h _ => exact absurd h hclosing
  next h _ _ => cases h
  next => rfl

theorem Place.Alike.next? {place place' : Place} {draft draft' : Draft}
    {parens parens' : List Paren} {token token' : Token} (h : place.Alike N place')
    (hdraft : draft.Alike N draft') (hparens : List.Forall₂ (Paren.Alike N S) parens parens')
    (htoken : token.Alike N S token') :
    Option.Rel (Agree S (Stage.Alike N S)) (place.next? draft parens token)
      (place'.next? draft' parens' token') := by
  cases htoken with
  | name hspan hname hname' hnames =>
    rw [next?_of_name hname, next?_of_name hname']
    cases h with
    | predicate h =>
      exact .some (.ok (.condition hdraft hparens (.operator h (.column hnames))))
    | rightOperand h hleft =>
      exact .some (.ok (.condition hdraft hparens (h.compare _ hleft (.column hnames))))
    | leftNumber | operator | rightNumber | ended => exact .none
  | other hspan hname hkind htext =>
    cases h with
    | predicate h => exact h.next? hdraft hparens (.other hspan hname hkind htext)
    | leftNumber h hsign =>
      simp only [Place.next?, hkind]
      split
      next hnumber =>
        refine .some ((Token.literal_agree hspan (htext hnumber) (.some hsign)).map
          fun _ _ hliteral => ?_)
        exact .condition hdraft hparens (.operator h (.literal hliteral))
      next => exact .none
    | operator h hleft =>
      simp only [Place.next?, hkind]
      cases token.kind.comparison? with
      | none => exact .none
      | some op => exact .some (.ok (.condition hdraft hparens (.rightOperand h hleft)))
    | rightOperand h hleft =>
      have hsigns := Token.sign?_alike hkind
      simp only [Place.next?, hkind, hname, Token.name?_eq_none_of_kind hkind hname]
      split
      next hnumber =>
        refine .some ((Token.literal_agree hspan (htext hnumber) .none).map fun _ _ hliteral => ?_)
        exact .condition hdraft hparens (h.compare _ hleft (.literal hliteral))
      next =>
        generalize token.sign? = sign, token'.sign? = sign' at hsigns
        cases hsigns with
        | some hsign =>
          exact .some (.ok (.condition hdraft hparens (.rightNumber h hleft hsign)))
        | none => exact .none
    | rightNumber h hleft hsign =>
      simp only [Place.next?, hkind]
      split
      next hnumber =>
        refine .some ((Token.literal_agree hspan (htext hnumber) (.some hsign)).map
          fun _ _ hliteral => ?_)
        exact .condition hdraft hparens (h.compare _ hleft (.literal hliteral))
      next => exact .none
    | ended hdisjunct hvalue =>
      have hjoined := Expr.Alike.joinOptional .or hdisjunct hvalue
      have hended : Draft.Alike N { draft with condition := some (.joinOptional .or _ _) }
          { draft' with condition := some (.joinOptional .or _ _) } :=
        ⟨hdraft.columns, hdraft.target, .some hjoined, hdraft.sleep, hdraft.speed⟩
      by_cases hand : token.kind = .keyword .and
      · simp only [Place.next?, hkind, hand]
        exact .some (.ok (.condition hdraft hparens (.predicate ⟨hdisjunct, .some hvalue, rfl⟩)))
      by_cases hor : token.kind = .keyword .or
      · simp only [Place.next?, hkind, hor]
        exact .some (.ok (.condition hdraft hparens (.predicate ⟨.some hjoined, .none, rfl⟩)))
      cases hparens with
      | nil =>
        rw [next?_ended_nil hand hor, next?_ended_nil (hkind ▸ hand) (hkind ▸ hor), hkind]
        exact hended.next? token.kind
      | cons hparen hparens =>
        by_cases hclosing : token.kind = .rightParen
        · simp only [Place.next?, hkind, hclosing]
          exact .some (.ok (.condition hdraft hparens (hparen.outer.complete hjoined _ _)))
        · rw [next?_ended_cons hand hor hclosing,
            next?_ended_cons (hkind ▸ hand) (hkind ▸ hor) (hkind ▸ hclosing)]
          exact .none

/-! ## One more token anywhere -/

/-- Outside conditions, a name is read as a column, as the target or not at all. -/
theorem Stage.next?_of_name {token : Token} {name : Name} (hname : token.name? = some name)
    (stage : Stage) : stage.next? token = match stage with
      | .column start columns => some (.ok (.columnEnd start (columns ++ [name])))
      | .target start columns => some (.ok (.clauses ⟨start, columns, name.asTarget, none, none, none⟩))
      | .condition draft parens place => place.next? draft parens token
      | _ => none := by
  cases stage with
  | select | columnEnd | closed =>
    rcases Token.kind_of_name? hname with hkind | hkind <;> simp [next?, hkind]
  | column | target => simp [next?, hname, Name.asTarget]
  | clauses draft => simp [next?, Draft.next?_of_name hname]
  | condition => rfl
  | sleep | speed =>
    rcases Token.kind_of_name? hname with hkind | hkind <;> simp [next?, hkind, Token.sign?]

/-- One more token of a setting: a numeral ends it, and a sign is remembered if there is none. -/
def Token.settle? (token : Token) (sign : Option Sign) (ended : Literal → Stage)
    (signed : Sign → Stage) : Option (Except SyntaxError Stage) :=
  match token.kind, sign, token.sign? with
  | .number, _, _ => some ((token.literal sign).map ended)
  | _, none, some sign => some (.ok (signed sign))
  | _, _, _ => none

theorem Stage.next?_sleep (draft : Draft) (sign : Option Sign) (token : Token) :
    (sleep draft sign).next? token = token.settle? sign
      (fun literal => .clauses { draft with sleep := some literal })
      fun sign => .sleep draft (some sign) :=
  rfl

theorem Stage.next?_speed (draft : Draft) (sign : Option Sign) (token : Token) :
    (speed draft sign).next? token = token.settle? sign
      (fun literal => .clauses { draft with speed := some literal })
      fun sign => .speed draft (some sign) :=
  rfl

theorem Token.settle?_agree {token token' : Token} {sign sign' : Option Sign}
    {ended ended' : Literal → Stage} {signed signed' : Sign → Stage}
    (hspan : S token.span token'.span) (hkind : token'.kind = token.kind)
    (htext : token.kind = .number → token'.text = token.text)
    (hsign : Option.Rel Sign.Alike sign sign')
    (hended : ∀ literal literal', literal.Alike literal' →
      (ended literal).Alike N S (ended' literal'))
    (hsigned : ∀ sign sign', sign.Alike sign' → (signed sign).Alike N S (signed' sign')) :
    Option.Rel (Agree S (Stage.Alike N S)) (token.settle? sign ended signed)
      (token'.settle? sign' ended' signed') := by
  have hsigns := Token.sign?_alike hkind
  unfold settle?
  rw [hkind]
  generalize token.sign? = next, token'.sign? = next' at hsigns
  by_cases hnumber : token.kind = .number
  · rw [hnumber]
    exact .some ((Token.literal_agree hspan (htext hnumber) hsign).map hended)
  · cases hsign with
    | some => cases hsigns <;> simp
    | none =>
      cases hsigns with
      | none => simp
      | some hsign => simpa [hnumber] using Agree.ok (hsigned _ _ hsign)

theorem Stage.Alike.next? {stage stage' : Stage} {token token' : Token}
    (h : stage.Alike N S stage') (htoken : token.Alike N S token') :
    Option.Rel (Agree S (Stage.Alike N S)) (stage.next? token) (stage'.next? token') := by
  cases htoken with
  | name hspan hname hname' hnames =>
    rw [next?_of_name hname, next?_of_name hname']
    cases h with
    | column h => exact .some (.ok (.columnEnd (List.rel_append h (.cons hnames .nil))))
    | target h =>
      exact .some (.ok (.clauses ⟨h, ⟨_, _, hnames, rfl, rfl⟩, .none, .none, .none⟩))
    | condition h hparens hplace =>
      exact hplace.next? h hparens (.name hspan hname hname' hnames)
    | select | columnEnd | clauses | sleep | speed | closed => exact .none
  | other hspan hname hkind htext =>
    have hname' := Token.name?_eq_none_of_kind hkind hname
    cases h with
    | select =>
      simp only [Stage.next?, hkind]
      split
      next => exact .some (.ok (.column .nil))
      next => exact .none
    | column | target =>
      simp only [Stage.next?, hname, hname']
      exact .none
    | columnEnd h =>
      simp only [Stage.next?, hkind]
      split
      next => exact .some (.ok (.column h))
      next => exact .some (.ok (.target h))
      next => exact .none
    | clauses h =>
      simp only [Stage.next?, hkind]
      exact h.next? token.kind
    | condition h hparens hplace =>
      exact hplace.next? h hparens (.other hspan hname hkind htext)
    | sleep h hsign =>
      rw [next?_sleep, next?_sleep]
      exact Token.settle?_agree hspan hkind htext hsign
        (fun _ _ hliteral => .clauses ⟨h.columns, h.target, h.condition, .some hliteral, h.speed⟩)
        fun _ _ hsign => .sleep h (.some hsign)
    | speed h hsign =>
      rw [next?_speed, next?_speed]
      exact Token.settle?_agree hspan hkind htext hsign
        (fun _ _ hliteral => .clauses ⟨h.columns, h.target, h.condition, h.sleep, .some hliteral⟩)
        fun _ _ hsign => .speed h (.some hsign)
    | closed => exact .none

/-! ## Tokens that are refused -/

theorem Token.Alike.span {token token' : Token} (h : token.Alike N S token') :
    S token.span token'.span := by
  cases h <;> assumption

/-- Alike tokens have the same kind, bare and quoted names apart. -/
theorem Token.Alike.kind_eq_iff {token token' : Token} (h : token.Alike N S token') (kind : Kind)
    (hbare : kind ≠ .name) (hquoted : kind ≠ .quotedName) :
    token'.kind = kind ↔ token.kind = kind := by
  cases h with
  | name _ hname hname' _ =>
    have hother {token : Token} {name : Name} (hname : token.name? = some name) :
        token.kind ≠ kind := by
      rcases Token.kind_of_name? hname with h | h <;> rw [h]
      · exact hbare.symm
      · exact hquoted.symm
    exact iff_of_false (hother hname') (hother hname)
  | other _ _ hkind _ => rw [hkind]

theorem Draft.Alike.expected_eq {draft draft' : Draft} (h : draft.Alike N draft') :
    draft'.expected = draft.expected := by
  have hcondition : Option.Rel (Expr.Alike N) draft.condition draft'.condition := h.condition
  have hsleep : Option.Rel Literal.Alike draft.sleep draft'.sleep := h.sleep
  have hspeed : Option.Rel Literal.Alike draft.speed draft'.speed := h.speed
  unfold Draft.expected
  generalize draft.condition = condition, draft'.condition = condition', draft.sleep = sleep,
    draft'.sleep = sleep', draft.speed = speed, draft'.speed = speed' at hcondition hsleep hspeed
  cases hcondition <;> cases hsleep <;> cases hspeed <;> rfl

theorem Place.Alike.expected_eq {place place' : Place} {draft draft' : Draft}
    {parens parens' : List Paren} (h : place.Alike N place') (hdraft : draft.Alike N draft')
    (hparens : List.Forall₂ (Paren.Alike N S) parens parens') :
    place'.expected draft' parens' = place.expected draft parens := by
  cases h with
  | predicate | leftNumber | operator | rightOperand | rightNumber => cases hparens <;> rfl
  | ended hdisjunct hvalue =>
    cases hparens with
    | cons => rfl
    | nil =>
      have hended : Draft.Alike N { draft with condition := some (.joinOptional .or _ _) }
          { draft' with condition := some (.joinOptional .or _ _) } :=
        ⟨hdraft.columns, hdraft.target, .some (.joinOptional .or hdisjunct hvalue), hdraft.sleep,
          hdraft.speed⟩
      exact hended.expected_eq

theorem Stage.Alike.expected_eq {stage stage' : Stage} (h : stage.Alike N S stage') :
    stage'.expected = stage.expected := by
  cases h with
  | select | column | columnEnd | target | sleep | speed => rfl
  | clauses h | closed h => exact h.expected_eq
  | condition h hparens hplace => exact hplace.expected_eq h hparens

theorem Stage.Alike.parens {stage stage' : Stage} (h : stage.Alike N S stage') :
    List.Forall₂ (Paren.Alike N S) stage.parens stage'.parens := by
  cases h with
  | condition _ hparens _ => exact hparens
  | _ => exact .nil

theorem Stage.unexpected_of_end {stage : Stage} {token : Token} (h : token.kind = .endOfQuery) :
    stage.unexpected token = ⟨.unexpectedEnd (Expectation.phrase stage.expected), token.span⟩ := by
  simp only [unexpected, h]

theorem Stage.unexpected_of_closing {stage : Stage} {token : Token} (h : token.kind = .rightParen)
    (hparens : stage.parens = []) : stage.unexpected token = ⟨.unmatchedClosing, token.span⟩ := by
  simp only [unexpected, h, hparens]

theorem Stage.unexpected_of_other {stage : Stage} {token : Token} (hend : token.kind ≠ .endOfQuery)
    (hclosing : token.kind = .rightParen → stage.parens ≠ []) : stage.unexpected token =
      ⟨.unexpectedToken (some (Expectation.phrase stage.expected)) token.text, token.span⟩ := by
  unfold unexpected
  split
  next h => exact absurd h hend
  next h hparens => exact absurd hparens (hclosing h)
  next => rfl

theorem Stage.Alike.unexpected {stage stage' : Stage} {token token' : Token}
    (h : stage.Alike N S stage') (htoken : token.Alike N S token') :
    (stage.unexpected token).Alike S (stage'.unexpected token') := by
  have hexpected := h.expected_eq
  have hparens : stage'.parens = [] ↔ stage.parens = [] := by
    rw [← List.length_eq_zero_iff, ← List.length_eq_zero_iff, h.parens.length_eq]
  have hendIff := htoken.kind_eq_iff .endOfQuery (by simp) (by simp)
  have hclosingIff := htoken.kind_eq_iff .rightParen (by simp) (by simp)
  by_cases hend : token.kind = .endOfQuery
  · rw [unexpected_of_end hend, unexpected_of_end (hendIff.2 hend), hexpected]
    exact ⟨rfl, rfl, htoken.span, .none⟩
  by_cases hclosing : token.kind = .rightParen ∧ stage.parens = []
  · rw [unexpected_of_closing hclosing.1 hclosing.2,
      unexpected_of_closing (hclosingIff.2 hclosing.1) (hparens.2 hclosing.2)]
    exact ⟨rfl, rfl, htoken.span, .none⟩
  · rw [unexpected_of_other hend (not_and.1 hclosing),
      unexpected_of_other (mt hendIff.1 hend) (by rwa [hclosingIff, Ne, hparens, ← not_and]),
      hexpected]
    exact ⟨rfl, rfl, htoken.span, .none⟩

theorem Stage.refuse_predicate {draft : Draft} {parens : List Paren} {pending : Pending}
    {token : Token} (hend : token.kind ≠ .endOfQuery) (hclosing : token.kind ≠ .rightParen) :
    (condition draft parens (.predicate pending)).refuse token =
      ⟨.expectedCondition token.text, token.span⟩ := by
  unfold refuse
  split <;> simp_all

theorem Stage.refuse_ended {draft : Draft} {paren : Paren} {parens : List Paren}
    {disjunct : Option Expr} {value : Expr} {token : Token} (hend : token.kind ≠ .endOfQuery) :
    (condition draft (paren :: parens) (.ended disjunct value)).refuse token =
      (condition draft (paren :: parens) (.ended disjunct value)).unexpected token := by
  unfold refuse
  split <;> simp_all

/-- Alike stages refuse alike tokens with errors that say the same. -/
theorem Stage.Alike.refuse {stage stage' : Stage} {token token' : Token}
    (h : stage.Alike N S stage') (htoken : token.Alike N S token') :
    (stage.refuse token).Alike S (stage'.refuse token') := by
  have hunexpected := h.unexpected htoken
  have hendIff := htoken.kind_eq_iff .endOfQuery (by simp) (by simp)
  have hclosingIff := htoken.kind_eq_iff .rightParen (by simp) (by simp)
  cases h with
  | select | column | columnEnd | target | clauses | sleep | speed | closed => exact hunexpected
  | condition h hparens hplace =>
    cases hplace with
    | leftNumber | operator | rightOperand | rightNumber => exact hunexpected
    | predicate =>
      by_cases hend : token.kind = .endOfQuery
      · simp only [Stage.refuse, hend, hendIff.2 hend]
        exact hunexpected
      by_cases hclosing : token.kind = .rightParen
      · simp only [Stage.refuse, hclosing, hclosingIff.2 hclosing]
        exact hunexpected
      · rw [refuse_predicate hend hclosing,
          refuse_predicate (mt hendIff.1 hend) (mt hclosingIff.1 hclosing)]
        exact ⟨rfl, rfl, htoken.span, .none⟩
    | ended =>
      cases hparens with
      | nil => exact hunexpected
      | cons hparen hparens =>
        by_cases hend : token.kind = .endOfQuery
        · simp only [Stage.refuse, hend, hendIff.2 hend]
          exact ⟨rfl, rfl, htoken.span, .some hparen.span⟩
        · rw [refuse_ended hend, refuse_ended (mt hendIff.1 hend)]
          exact hunexpected

/-! ## Reading -/

/-- **One more token**: alike stages go on with alike tokens to alike stages, or refuse them with
errors that say the same. -/
theorem Stage.Alike.step {stage stage' : Stage} {token token' : Token}
    (h : stage.Alike N S stage') (htoken : token.Alike N S token') :
    Agree S (Stage.Alike N S) (stage.step token) (stage'.step token') := by
  have hnext := h.next? htoken
  have hrefuse := h.refuse htoken
  unfold Stage.step
  generalize stage.next? token = result, stage'.next? token' = result' at hnext
  cases hnext with
  | some hresult => exact hresult
  | none => exact .error hrefuse

/-- **Many tokens.** -/
theorem Stage.Alike.run {stage stage' : Stage} {tokens tokens' : List Token}
    (h : stage.Alike N S stage') (htokens : List.Forall₂ (Token.Alike N S) tokens tokens') :
    Agree S (Stage.Alike N S) (tokens.foldlM Stage.step stage)
      (tokens'.foldlM Stage.step stage') := by
  induction htokens generalizing stage stage' with
  | nil => exact .ok h
  | @cons token token' tokens tokens' htoken _ ih =>
    rw [List.foldlM_cons, List.foldlM_cons]
    have hstep := h.step htoken
    generalize stage.step token = result, stage'.step token' = result' at hstep
    cases hstep with
    | ok h => exact ih h
    | error h => exact .error h

theorem Stage.Alike.finish? {stage stage' : Stage} (h : stage.Alike N S stage') (stop stop' : Nat) :
    Option.Rel (Query.Alike N) (stage.finish? stop) (stage'.finish? stop') := by
  cases h with
  | select | column | columnEnd | target | sleep | speed => exact .none
  | clauses h | closed h => exact .some ⟨h.columns, h.target, h.condition, h.sleep, h.speed⟩
  | condition h hparens hplace =>
    cases hplace with
    | predicate | leftNumber | operator | rightOperand | rightNumber =>
      cases hparens <;> exact .none
    | ended hdisjunct hvalue =>
      cases hparens with
      | cons => exact .none
      | nil =>
        exact .some ⟨h.columns, h.target, .some (.joinOptional .or hdisjunct hvalue), h.sleep, h.speed⟩

/-- **Whole queries**: alike tokens are read as alike queries, or refused with errors that say the
same. -/
theorem read_agree {tokens tokens' : List Token} {size size' : Nat}
    (h : List.Forall₂ (Token.Alike N S) tokens tokens') (hend : S (.empty size) (.empty size')) :
    Agree S (Query.Alike N) (Query.read tokens size) (Query.read tokens' size') := by
  have hrun := Stage.Alike.run .select h
  have hfinal : (Token.endAt size).Alike N S (Token.endAt size') :=
    .other hend rfl rfl (by simp [Token.endAt])
  unfold Query.read
  generalize tokens.foldlM Stage.step .select = result,
    tokens'.foldlM Stage.step .select = result' at hrun
  cases hrun with
  | error h => exact .error h
  | @ok stage stage' h =>
    have hfinish := h.finish? (lastStop tokens) (lastStop tokens')
    simp only [bind, Except.bind]
    generalize stage.finish? (lastStop tokens) = query,
      stage'.finish? (lastStop tokens') = query' at hfinish
    cases hfinish with
    | some h => exact .ok h
    | none => exact .error (h.refuse hfinal)

/-- **Whole sources** without faults. -/
theorem parse_agree {source source' : String} (hfaults : faultsOf source = [])
    (hfaults' : faultsOf source' = [])
    (h : List.Forall₂ (Token.Alike N S) (tokensOf source) (tokensOf source'))
    (hend : S (.empty (endOf source)) (.empty (endOf source'))) :
    Agree S (Query.Alike N) (Query.parse source) (Query.parse source') := by
  rw [Query.parse, Query.parse, hfaults, hfaults']
  exact read_agree h hend

end

end PinQuery
