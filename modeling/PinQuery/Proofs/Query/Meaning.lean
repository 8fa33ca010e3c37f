import PinQuery.Ordered
import PinQuery.Proofs.Query.Acceptance
import PinQuery.Proofs.Query.Shape

/-!
# Reading up to meaning

Two queries have the same meaning if they agree up to places and quoting and in the set of their
columns. The reader keeps this apart from the rest: what it remembers of the tokens up to meaning
depends on the tokens up to places and quoting.

* `Query.SameMeaning` and its normal form `Query.plain`.
* `Stage.plain` is a stage up to meaning, `Token.bare` a token without its place and quoting.
* `Stage.plain_step`: one more token keeps stages together that agree up to meaning.
  `Stage.reading_congr`: so do all tokens up to the end.
* `Restates`: other tokens for the same query. Places and quoting differ, columns are in another
  order or repeated, or there are parentheses around a phrase that binds tightly enough without.
* `Restates.reading`: restated tokens are read as queries with the same meaning.
-/

namespace PinQuery

/-! ## Queries with the same meaning -/

/-- Queries with the same columns, whatever their order, the same target, the same condition up to
places and quoting, and the same settings. Numbers have to be identical: the two float zeros are
written differently in programs. -/
structure Query.SameMeaning (query query' : Query) : Prop where
  columns : ∀ name, name ∈ query.columns.map Name.text ↔ name ∈ query'.columns.map Name.text
  target : query.target.text = query'.target.text
  condition : query.condition.map Expr.bare = query'.condition.map Expr.bare
  sleep : query.sleep.map Literal.value = query'.sleep.map Literal.value
  speed : query.speed.map Literal.value = query'.speed.map Literal.value

/-- The columns in the order of their names, each of them once, without places and quoting. -/
def plainColumns (columns : List Name) : List Name :=
  (OrderedSet.ofList (columns.map Name.text)).toList.map fun text => ⟨text, false, .empty 0⟩

theorem plainColumns_eq_iff {columns columns' : List Name} :
    plainColumns columns = plainColumns columns' ↔
      ∀ name, name ∈ columns.map Name.text ↔ name ∈ columns'.map Name.text := by
  have htexts (columns : List Name) : (plainColumns columns).map Name.text =
      (OrderedSet.ofList (columns.map Name.text)).toList := by
    simp [plainColumns, Function.comp_def]
  constructor
  · intro h name
    rw [← OrderedSet.mem_ofList, ← OrderedSet.mem_ofList, OrderedSet.mem_def, OrderedSet.mem_def,
      ← htexts, ← htexts, h]
  · intro h
    have hset : OrderedSet.ofList (columns.map Name.text) =
        OrderedSet.ofList (columns'.map Name.text) :=
      OrderedSet.ext_mem fun name => by simpa only [OrderedSet.mem_ofList] using h name
    rw [plainColumns, plainColumns, hset]

/-- A query up to meaning. -/
def Query.plain (query : Query) : Query where
  columns := plainColumns query.columns
  target := query.target.bare
  condition := query.condition.map Expr.bare
  sleep := query.sleep.map Literal.bare
  speed := query.speed.map Literal.bare
  span := .empty 0

theorem Literal.map_bare_eq_iff {setting setting' : Option Literal} :
    setting.map bare = setting'.map bare ↔ setting.map value = setting'.map value := by
  cases setting <;> cases setting' <;> simp [bare]

theorem Query.plain_eq_iff {query query' : Query} :
    query.plain = query'.plain ↔ query.SameMeaning query' := by
  have htarget : query.target.bare = query'.target.bare ↔
      query.target.text = query'.target.text := by
    simp [TargetName.bare]
  simp only [plain, mk.injEq, plainColumns_eq_iff, htarget, Literal.map_bare_eq_iff, and_true]
  constructor
  · rintro ⟨hcolumns, hname, hcondition, hsleep, hspeed⟩
    exact ⟨hcolumns, hname, hcondition, hsleep, hspeed⟩
  · rintro ⟨hcolumns, hname, hcondition, hsleep, hspeed⟩
    exact ⟨hcolumns, hname, hcondition, hsleep, hspeed⟩

/-! ## Tokens and stages up to meaning -/

/-- A kind of token, a name being quoted or not. -/
def Kind.bare : Kind → Kind
  | .quotedName => .name
  | kind => kind

/-- A token without its place and quoting. Only names and numbers keep a text. -/
def Token.bare (token : Token) : Token where
  kind := token.kind.bare
  text :=
    match token.kind with
    | .name | .number => token.text
    | .quotedName => String.ofList (token.text.toList.drop 1).dropLast
    | _ => ""
  span := .empty 0

/-- A sign without its place. -/
def Sign.bare (sign : Sign) : Sign := ⟨sign.negative, 0⟩

/-- Waiting operands without places and quoting. -/
def Pending.bare (pending : Pending) : Pending where
  disjunct := pending.disjunct.map Expr.bare
  conjunct := pending.conjunct.map Expr.bare
  negations := pending.negations.map fun _ => 0

/-- An open parenthesis without its place. -/
def Paren.bare (paren : Paren) : Paren := ⟨.empty 0, paren.outer.bare⟩

/-- A place in a condition, without places in the source and quoting. -/
def Place.bare : Place → Place
  | .predicate pending => .predicate pending.bare
  | .leftNumber pending sign => .leftNumber pending.bare sign.bare
  | .operator pending left => .operator pending.bare left.bare
  | .rightOperand pending left op => .rightOperand pending.bare left.bare op
  | .rightNumber pending left op sign => .rightNumber pending.bare left.bare op sign.bare
  | .ended disjunct value => .ended (disjunct.map Expr.bare) value.bare

/-- A draft up to meaning. -/
def Draft.plain (draft : Draft) : Draft where
  start := 0
  columns := plainColumns draft.columns
  target := draft.target.bare
  condition := draft.condition.map Expr.bare
  sleep := draft.sleep.map Literal.bare
  speed := draft.speed.map Literal.bare

/-- A stage up to meaning. -/
def Stage.plain : Stage → Stage
  | .select => .select
  | .column _ columns => .column 0 (plainColumns columns)
  | .columnEnd _ columns => .columnEnd 0 (plainColumns columns)
  | .target _ columns => .target 0 (plainColumns columns)
  | .clauses draft => .clauses draft.plain
  | .condition draft parens place => .condition draft.plain (parens.map Paren.bare) place.bare
  | .sleep draft sign => .sleep draft.plain (sign.map Sign.bare)
  | .speed draft sign => .speed draft.plain (sign.map Sign.bare)
  | .closed draft => .closed draft.plain

namespace Token

variable (token : Token)

theorem name?_bare : token.bare.name? = token.name?.map Name.bare := by
  obtain ⟨kind, text, span⟩ := token
  cases kind <;> rfl

theorem kind_bare_eq_keyword_iff {word : Keyword} :
    token.bare.kind = .keyword word ↔ token.kind = .keyword word := by
  obtain ⟨kind, text, span⟩ := token
  cases kind <;> simp [bare, Kind.bare]

variable {token}

theorem literal_bare (h : token.kind = .number) (sign : Option Sign) :
    (token.bare.literal (sign.map Sign.bare)).toOption =
      (token.literal sign).toOption.map Literal.bare := by
  obtain ⟨kind, text, span⟩ := token
  cases h
  simp only [Token.literal, Token.bare]
  cases Number.ofNumeral? text.toList with
  | none => rfl
  | some value => cases sign <;> rfl

end Token

theorem Expr.span_bare (e : Expr) : e.bare.span = .empty 0 := by
  cases e <;> rfl

theorem Expr.bare_joinOptional (op : Connective) (left : Option Expr) (right : Expr) :
    (joinOptional op left right).bare = joinOptional op (left.map bare) right.bare := by
  cases left with
  | none => rfl
  | some left =>
    simp only [joinOptional, join, bare, Option.map_some, span_bare]
    rfl

theorem Expr.bare_foldl_negation (starts : List Nat) (stop : Nat) (e : Expr) :
    (starts.foldl (fun inner start => negation inner ⟨start, stop⟩) e).bare =
      (starts.map fun _ => 0).foldl (fun inner start => negation inner ⟨start, 0⟩) e.bare := by
  induction starts generalizing e with
  | nil => rfl
  | cons start starts ih =>
    rw [List.map_cons, List.foldl_cons, List.foldl_cons, ih]
    rfl

theorem Pending.bare_complete (pending : Pending) (e : Expr) (stop : Nat) :
    (pending.complete e stop).bare = pending.bare.complete e.bare 0 := by
  simp only [complete, Place.bare, Expr.bare_joinOptional, Expr.bare_foldl_negation, bare]

theorem Pending.bare_compare (pending : Pending) (op : Comparison) (left right : Expr) :
    (pending.compare op left right).bare = pending.bare.compare op left.bare right.bare := by
  simp only [compare, bare_complete, Expr.bare, Expr.span_bare]
  rfl

/-! ## One more token -/

/-- The stage that a look-up of the next one leads to, if there is one. -/
def settled (result : Option (Except SyntaxError Stage)) : Option Stage :=
  result.bind Except.toOption

theorem Stage.toOption_step (stage : Stage) (token : Token) :
    (stage.step token).toOption = settled (stage.next? token) := by
  unfold Stage.step settled
  cases stage.next? token <;> rfl

/-- A number leads to the same stage up to meaning, wherever it stands. -/
theorem settled_literal (token : Token) (h : token.kind = .number) (sign : Option Sign)
    {next next' : Literal → Stage} (hnext : ∀ literal, next' literal.bare = (next literal).plain) :
    settled (some ((token.bare.literal (sign.map Sign.bare)).map next')) =
      (settled (some ((token.literal sign).map next))).map Stage.plain := by
  have hbare := Token.literal_bare h sign
  cases hliteral : token.literal sign with
  | error e =>
    rw [hliteral] at hbare
    cases hliteral' : token.bare.literal (sign.map Sign.bare) with
    | error e' => rfl
    | ok literal' => rw [hliteral'] at hbare; cases hbare
  | ok literal =>
    rw [hliteral] at hbare
    cases hliteral' : token.bare.literal (sign.map Sign.bare) with
    | error e' => rw [hliteral'] at hbare; cases hbare
    | ok literal' =>
      rw [hliteral'] at hbare
      cases hbare
      exact congrArg some (hnext literal)

theorem Draft.next?_plain (draft : Draft) (kind : Kind) :
    draft.plain.next? kind.bare = (draft.next? kind).map Stage.plain := by
  cases kind with
  | keyword word => cases word <;> simp [next?, Kind.bare, plain] <;> split <;> rfl
  | _ => rfl

/-- Behind a condition without open parentheses, what is no connective goes on with the clauses. -/
theorem Place.next?_ended_nil {token : Token} (hand : token.kind ≠ .keyword .and)
    (hor : token.kind ≠ .keyword .or) (disjunct : Option Expr) (value : Expr) (draft : Draft) :
    (Place.ended disjunct value).next? draft [] token =
      (Draft.next? { draft with condition := some (.joinOptional .or disjunct value) }
        token.kind).map .ok := by
  simp only [Place.next?]

section

variable (draft : Draft) (parens : List Paren) (token : Token)

theorem Pending.next?_bare (pending : Pending) :
    settled (pending.bare.next? draft.plain (parens.map Paren.bare) token.bare) =
      (settled (pending.next? draft parens token)).map Stage.plain := by
  obtain ⟨kind, text, span⟩ := token
  cases kind with
  | keyword word => cases word <;> rfl
  | number => exact settled_literal ⟨.number, text, span⟩ rfl none fun _ => rfl
  | _ => rfl

theorem Place.next?_ended_bare (disjunct : Option Expr) (value : Expr) :
    settled ((Place.ended disjunct value).bare.next? draft.plain (parens.map Paren.bare)
        token.bare) =
      (settled ((Place.ended disjunct value).next? draft parens token)).map Stage.plain := by
  have hjoin := Expr.bare_joinOptional .or disjunct value
  by_cases hand : token.kind = .keyword .and
  · simp only [Place.bare, Place.next?, hand, token.kind_bare_eq_keyword_iff.2 hand]
    rfl
  by_cases hor : token.kind = .keyword .or
  · simp only [Place.bare, Place.next?, hor, token.kind_bare_eq_keyword_iff.2 hor, ← hjoin]
    rfl
  cases parens with
  | nil =>
    have hand' := mt token.kind_bare_eq_keyword_iff.1 hand
    have hor' := mt token.kind_bare_eq_keyword_iff.1 hor
    have hdraft := Draft.next?_plain
      { draft with condition := some (.joinOptional .or disjunct value) } token.kind
    simp only [Draft.plain, Option.map_some, hjoin] at hdraft
    rw [List.map_nil, Place.bare, next?_ended_nil hand' hor', next?_ended_nil hand hor]
    simp only [Draft.plain, Token.bare, hdraft]
    cases Draft.next? _ token.kind <;> rfl
  | cons paren parens =>
    obtain ⟨kind, text, span⟩ := token
    cases kind with
    | keyword word =>
      cases word with
      | and => exact absurd rfl hand
      | or => exact absurd rfl hor
      | _ => rfl
    | rightParen =>
      have hcomplete := paren.outer.bare_complete (.joinOptional .or disjunct value) span.stop
      rw [hjoin] at hcomplete
      exact congrArg (fun place => some (Stage.condition draft.plain (parens.map Paren.bare) place))
        hcomplete.symm
    | _ => rfl

theorem Place.next?_bare (place : Place) :
    settled (place.bare.next? draft.plain (parens.map Paren.bare) token.bare) =
      (settled (place.next? draft parens token)).map Stage.plain := by
  have hcompare (pending : Pending) (op : Comparison) (left right : Expr) :
      Stage.condition draft.plain (parens.map Paren.bare)
          (pending.bare.compare op left.bare right.bare) =
        (Stage.condition draft parens (pending.compare op left right)).plain := by
    rw [Stage.plain, Pending.bare_compare]
  obtain ⟨kind, text, span⟩ := token
  cases place with
  | predicate pending => exact pending.next?_bare draft parens ⟨kind, text, span⟩
  | leftNumber pending sign =>
    cases kind with
    | number => exact settled_literal ⟨.number, text, span⟩ rfl (some sign) fun _ => rfl
    | _ => rfl
  | operator pending left => cases kind <;> rfl
  | rightOperand pending left op =>
    cases kind with
    | number =>
      exact settled_literal ⟨.number, text, span⟩ rfl none
        fun literal => hcompare pending op left (.literal literal)
    | name => exact congrArg some (hcompare pending op left (.column ⟨text, false, span⟩))
    | quotedName =>
      exact congrArg some (hcompare pending op left
        (.column ⟨String.ofList (text.toList.drop 1).dropLast, true, span⟩))
    | _ => rfl
  | rightNumber pending left op sign =>
    cases kind with
    | number =>
      exact settled_literal ⟨.number, text, span⟩ rfl (some sign)
        fun literal => hcompare pending op left (.literal literal)
    | _ => rfl
  | ended disjunct value => exact next?_ended_bare draft parens ⟨kind, text, span⟩ disjunct value

end

namespace Stage

/-- Outside the columns a step up to meaning is a step of the stage up to meaning. -/
theorem plain_step_of_ne_column {stage : Stage} (h : ∀ start columns, stage ≠ .column start columns)
    (token : Token) :
    (stage.plain.step token.bare).toOption = (stage.step token).toOption.map plain := by
  rw [toOption_step, toOption_step]
  obtain ⟨kind, text, span⟩ := token
  cases stage with
  | select | columnEnd start columns =>
    cases kind with
    | keyword word => cases word <;> rfl
    | _ => rfl
  | column start columns => exact absurd rfl (h start columns)
  | target start columns => cases kind <;> rfl
  | clauses draft =>
    simp only [plain, next?, Token.bare, Draft.next?_plain]
    cases draft.next? kind <;> rfl
  | condition draft parens place => exact place.next?_bare draft parens ⟨kind, text, span⟩
  | sleep draft sign | speed draft sign =>
    cases kind with
    | number => exact settled_literal ⟨.number, text, span⟩ rfl sign fun _ => rfl
    | _ => cases sign <;> rfl
  | closed draft => rfl

theorem plain_step_column {start start' : Nat} {columns columns' : List Name} {token token' : Token}
    (h : plainColumns columns = plainColumns columns') (htoken : token.bare = token'.bare) :
    ((Stage.column start columns).step token).toOption.map plain =
      ((Stage.column start' columns').step token').toOption.map plain := by
  have hname : token.name?.map Name.bare = token'.name?.map Name.bare := by
    rw [← token.name?_bare, ← token'.name?_bare, htoken]
  rw [toOption_step, toOption_step]
  simp only [next?]
  cases hleft : token.name? with
  | none =>
    rw [hleft, Option.map_none, eq_comm, Option.map_eq_none_iff] at hname
    rw [hname]
    rfl
  | some name =>
    rw [hleft, Option.map_some, eq_comm, Option.map_eq_some_iff] at hname
    obtain ⟨name', hright, hname⟩ := hname
    have htext : name'.text = name.text := (Name.mk.inj hname).1
    have hcolumns : plainColumns (columns ++ [name]) = plainColumns (columns' ++ [name']) := by
      rw [plainColumns_eq_iff] at h ⊢
      intro text
      simp only [List.map_append, List.mem_append, h text, List.map_cons, List.map_nil, htext]
    rw [hright]
    exact congrArg (fun columns => some (Stage.columnEnd 0 columns)) hcolumns

/-- **One more token keeps stages together that agree up to meaning.** -/
theorem plain_step {stage stage' : Stage} {token token' : Token} (h : stage.plain = stage'.plain)
    (htoken : token.bare = token'.bare) :
    (stage.step token).toOption.map plain = (stage'.step token').toOption.map plain := by
  cases stage with
  | column start columns =>
    cases stage' with
    | column start' columns' => exact plain_step_column (column.inj h).2 htoken
    | _ => cases h
  | _ =>
    rw [← plain_step_of_ne_column (by rintro start columns ⟨⟩), h, htoken, plain_step_of_ne_column]
    rintro start columns rfl
    cases h

/-! ## To the end of the query -/

/-- The query that is read from a stage on, up to meaning. -/
def reading (stage : Stage) (tokens : List Token) : Option Query :=
  (tokens.foldlM step stage).toOption.bind fun last => (last.finish? 0).map Query.plain

theorem reading_cons (stage : Stage) (token : Token) (tokens : List Token) :
    stage.reading (token :: tokens) =
      (stage.step token).toOption.bind fun next => next.reading tokens := by
  rw [reading, List.foldlM_cons]
  cases stage.step token <;> rfl

theorem reading_append (stage : Stage) (tokens more : List Token) :
    stage.reading (tokens ++ more) =
      (tokens.foldlM step stage).toOption.bind fun next => next.reading more := by
  rw [reading, List.foldlM_append]
  cases tokens.foldlM step stage <;> rfl

theorem plain_finish? (stage : Stage) (stop : Nat) :
    (stage.finish? stop).map Query.plain = (stage.plain.finish? 0) := by
  cases stage with
  | condition draft parens place =>
    cases place with
    | ended disjunct value =>
      cases parens with
      | nil =>
        simp [finish?, plain, Place.bare, Draft.query, Query.plain, Draft.plain,
          Expr.bare_joinOptional, Span.empty]
      | cons paren parens => rfl
    | _ => cases parens <;> rfl
  | _ => rfl

/-- **Reading to the end keeps together what agrees up to meaning.** -/
theorem reading_congr {stage stage' : Stage} {tokens tokens' : List Token}
    (h : stage.plain = stage'.plain) (htokens : tokens.map Token.bare = tokens'.map Token.bare) :
    stage.reading tokens = stage'.reading tokens' := by
  induction tokens generalizing stage stage' tokens' with
  | nil =>
    obtain rfl := List.map_eq_nil_iff.1 htokens.symm
    change (stage.finish? 0).map Query.plain = (stage'.finish? 0).map Query.plain
    rw [plain_finish?, plain_finish?, h]
  | cons token tokens ih =>
    obtain ⟨token', tokens', rfl, htoken, htokens⟩ := List.map_eq_cons_iff.1 htokens.symm
    have hstep := plain_step h htoken.symm
    rw [reading_cons, reading_cons]
    cases hleft : stage.step token with
    | error e =>
      cases hright : stage'.step token' with
      | error e' => rfl
      | ok next' => rw [hleft, hright] at hstep; cases hstep
    | ok next =>
      cases hright : stage'.step token' with
      | error e' => rw [hleft, hright] at hstep; cases hstep
      | ok next' =>
        rw [hleft, hright] at hstep
        exact ih (Option.some.inj hstep) htokens.symm

end Stage

theorem Query.toOption_read (tokens : List Token) (size : Nat) :
    (Query.read tokens size).toOption.map Query.plain = Stage.select.reading tokens := by
  unfold Query.read Stage.reading
  cases tokens.foldlM Stage.step .select with
  | error e => rfl
  | ok stage =>
    have hplain : (stage.finish? (lastStop tokens)).map plain = (stage.finish? 0).map plain := by
      rw [stage.plain_finish?, stage.plain_finish?]
    simp only [bind, Except.bind, Except.toOption, Option.bind_some, ← hplain]
    cases stage.finish? (lastStop tokens) <;> rfl

/-! ## Other tokens for the same query -/

/-- The kinds of token behind which a phrase of a level begins. -/
def Level.openers : Level → List Kind
  | .disjunction => [.keyword .where_, .leftParen]
  | .conjunction => [.keyword .where_, .leftParen, .keyword .or]
  | .factor => [.keyword .where_, .leftParen, .keyword .or, .keyword .and, .keyword .not]

theorem Level.openers_subset (level : Level) : level.openers ⊆ Level.factor.openers := by
  cases level <;> simp [openers]

/-- A phrase behind a token of one kind, and before a token of another or before the end, that can
stand in parentheses as well: it binds tightly enough for its neighbours. -/
def Redundant (before : Kind) (phrase : List Token) (after : Option Kind) : Prop :=
  ∃ level e, Spells level phrase e ∧ before ∈ level.openers ∧
    (level = .disjunction → after ≠ some (.keyword .and))

/-- Tokens that say the same in another way. -/
inductive Restates : List Token → List Token → Prop
  /-- Places and quoting differ. -/
  | bare {tokens tokens' : List Token} (h : tokens.map Token.bare = tokens'.map Token.bare) :
      Restates tokens tokens'
  /-- The columns are in another order, or some are repeated. -/
  | columns {select : Token} {columns columns' rest : List Token} {names names' : List Name}
      (hcolumns : SpellsColumns columns names) (hcolumns' : SpellsColumns columns' names')
      (hnames : ∀ name, name ∈ names.map Name.text ↔ name ∈ names'.map Name.text) :
      Restates (select :: (columns ++ rest)) (select :: (columns' ++ rest))
  /-- A phrase is in parentheses. -/
  | parens {before phrase after : List Token} {token opening closing : Token}
      (h : Redundant token.kind phrase (after.head?.map Token.kind))
      (hopening : opening.kind = .leftParen) (hclosing : closing.kind = .rightParen) :
      Restates (before ++ token :: (phrase ++ after))
        (before ++ token :: opening :: (phrase ++ closing :: after))
  | symm {tokens tokens' : List Token} (h : Restates tokens tokens') : Restates tokens' tokens
  | trans {tokens tokens' tokens'' : List Token} (h : Restates tokens tokens')
      (h' : Restates tokens' tokens'') : Restates tokens tokens''

theorem Reaches.reading {stage stage' : Stage} {tokens : List Token}
    (h : Reaches stage tokens stage') (more : List Token) :
    stage.reading (tokens ++ more) = stage'.reading more := by
  unfold Reaches at h
  rw [Stage.reading_append, h]
  rfl

/-- What waits for the predicate behind a token of a kind. -/
inductive Kind.Awaits : Kind → Pending → Prop
  | where_ : Awaits (.keyword .where_) .empty
  | leftParen : Awaits .leftParen .empty
  | or (disjunct : Option Expr) : Awaits (.keyword .or) ⟨disjunct, none, []⟩
  | and (pending : Pending) : Awaits (.keyword .and) pending
  | not (pending : Pending) : Awaits (.keyword .not) pending

theorem Draft.predicate_of_next? {draft : Draft} {kind : Kind} {stage : Stage}
    (h : draft.next? kind = some stage) (hkind : kind ∈ Level.factor.openers) :
    kind = .keyword .where_ ∧ stage = .condition draft [] (.predicate .empty) := by
  simp only [Level.openers, List.mem_cons, List.not_mem_nil, or_false] at hkind
  rcases hkind with rfl | rfl | rfl | rfl | rfl
  · simp only [next?] at h
    split at h <;> cases h
    exact ⟨rfl, rfl⟩
  all_goals cases h

theorem Place.predicate_of_next? {place : Place} {draft : Draft} {parens : List Paren}
    {token : Token} {stage : Stage} (h : settled (place.next? draft parens token) = some stage)
    (hkind : token.kind ∈ Level.factor.openers) :
    ∃ draft parens pending, stage = .condition draft parens (.predicate pending) ∧
      token.kind.Awaits pending := by
  have hkinds := hkind
  simp only [Level.openers, List.mem_cons, List.not_mem_nil, or_false] at hkinds
  obtain ⟨kind, text, span⟩ := token
  cases place with
  | predicate pending =>
    rcases hkinds with rfl | rfl | rfl | rfl | rfl <;> cases h
    · exact ⟨_, _, _, rfl, .leftParen⟩
    · exact ⟨_, _, _, rfl, .not _⟩
  | ended disjunct value =>
    rcases hkinds with rfl | rfl | rfl | rfl | rfl
    · cases parens with
      | nil => simp [next?, Draft.next?, settled] at h
      | cons => cases h
    · cases parens <;> cases h
    · cases h
      exact ⟨_, _, _, rfl, .or _⟩
    · cases h
      exact ⟨_, _, _, rfl, .and _⟩
    · cases parens <;> cases h
  | _ => rcases hkinds with rfl | rfl | rfl | rfl | rfl <;> cases h

/-- Behind an opener the reader is before a predicate. -/
theorem Stage.predicate_of_step {stage stage' : Stage} {token : Token}
    (h : stage.step token = .ok stage') (hkind : token.kind ∈ Level.factor.openers) :
    ∃ draft parens pending, stage' = .condition draft parens (.predicate pending) ∧
      token.kind.Awaits pending := by
  have hnext : settled (stage.next? token) = some stage' := by
    rw [← toOption_step, h]
    rfl
  cases stage with
  | clauses draft =>
    simp only [next?] at hnext
    cases hdraft : draft.next? token.kind with
    | none => rw [hdraft] at hnext; cases hnext
    | some next =>
      rw [hdraft] at hnext
      cases hnext
      obtain ⟨hwhere, rfl⟩ := Draft.predicate_of_next? hdraft hkind
      exact ⟨_, _, _, rfl, hwhere ▸ .where_⟩
  | condition draft parens place => exact Place.predicate_of_next? hnext hkind
  | sleep draft sign | speed draft sign =>
    obtain ⟨kind, text, span⟩ := token
    simp only [Level.openers, List.mem_cons, List.not_mem_nil, or_false] at hkind
    rcases hkind with rfl | rfl | rfl | rfl | rfl <;> cases sign <;> cases hnext
  | _ =>
    obtain ⟨kind, text, span⟩ := token
    simp only [Level.openers, List.mem_cons, List.not_mem_nil, or_false] at hkind
    rcases hkind with rfl | rfl | rfl | rfl | rfl <;> cases hnext

/-- A disjunction behind which no `AND` follows can be joined at once. -/
theorem Stage.reading_ended {after : List Token}
    (h : after.head?.map Token.kind ≠ some (.keyword .and)) (draft : Draft) (parens : List Paren)
    (disjunct : Option Expr) (value : Expr) :
    (Stage.condition draft parens (.ended disjunct value)).reading after =
      (Stage.condition draft parens (.ended none (.joinOptional .or disjunct value))).reading
        after := by
  cases after with
  | nil => cases parens <;> rfl
  | cons token after =>
    rw [reading_cons, reading_cons, toOption_step, toOption_step]
    have hnext : (Stage.condition draft parens (.ended disjunct value)).next? token =
        (Stage.condition draft parens
          (.ended none (.joinOptional .or disjunct value))).next? token := by
      simp only [next?, Place.next?]
      split
      next hand => simp [hand] at h
      all_goals rfl
    rw [hnext]

/-- Redundant parentheses are read without a trace. -/
theorem Redundant.reading {token opening closing : Token} {phrase after : List Token}
    {stage stage' : Stage} (h : Redundant token.kind phrase (after.head?.map Token.kind))
    (hopening : opening.kind = .leftParen) (hclosing : closing.kind = .rightParen)
    (hstep : stage.step token = .ok stage') :
    stage'.reading (phrase ++ after) =
      stage'.reading (opening :: (phrase ++ closing :: after)) := by
  have hsplit : opening :: (phrase ++ closing :: after) =
      opening :: (phrase ++ [closing]) ++ after := by simp
  obtain ⟨level, e, hphrase, hbefore, hafter⟩ := h
  obtain ⟨draft, parens, pending, rfl, hawaits⟩ :=
    Stage.predicate_of_step hstep (level.openers_subset hbefore)
  rw [hsplit]
  cases level with
  | factor =>
    have hparen := Spells.paren hopening (.conjunction (.factor hphrase)) hclosing
    rw [(hphrase.completes draft parens pending).reading,
      (hparen.completes draft parens pending).reading]
    refine Stage.reading_congr ?_ rfl
    simp only [Stage.plain, Pending.bare_complete]
  | conjunction =>
    have hparen := Spells.paren hopening (.conjunction hphrase) hclosing
    obtain ⟨disjunct, rfl⟩ : ∃ disjunct, pending = ⟨disjunct, none, []⟩ := by
      generalize token.kind = kind at hbefore hawaits
      cases hawaits with
      | where_ | leftParen | or => exact ⟨_, rfl⟩
      | and | not => simp [Level.openers] at hbefore
    rw [(hphrase.completes draft parens disjunct).reading,
      (hparen.completes draft parens ⟨disjunct, none, []⟩).reading]
    rfl
  | disjunction =>
    have hparen := Spells.paren hopening hphrase hclosing
    obtain rfl : pending = .empty := by
      generalize token.kind = kind at hbefore hawaits
      cases hawaits with
      | where_ | leftParen => rfl
      | or | and | not => simp [Level.openers] at hbefore
    obtain ⟨disjunct, value, rfl, hreaches⟩ := hphrase.completes draft parens
    rw [hreaches.reading, (hparen.completes draft parens .empty).reading,
      Stage.reading_ended (hafter rfl)]
    rfl

/-- **Restated tokens are read as queries with the same meaning**, or not at all. -/
theorem Restates.reading {tokens tokens' : List Token} (h : Restates tokens tokens') :
    Stage.select.reading tokens = Stage.select.reading tokens' := by
  induction h with
  | bare h => exact Stage.reading_congr rfl h
  | @columns select columns columns' rest names names' hcolumns hcolumns' hnames =>
    rw [Stage.reading_cons, Stage.reading_cons]
    cases hselect : Stage.select.step select with
    | error e => rfl
    | ok stage =>
      obtain ⟨start, rfl⟩ : ∃ start, stage = .column start [] := by
        simp only [Stage.step, Stage.next?] at hselect
        split at hselect
        next hnext =>
          split at hnext
          next => cases hnext; cases hselect; exact ⟨_, rfl⟩
          next => cases hnext
        next => cases hselect
      change (Stage.column start []).reading (columns ++ rest) =
        (Stage.column start []).reading (columns' ++ rest)
      rw [(hcolumns.reaches start).reading, (hcolumns'.reaches start).reading]
      refine Stage.reading_congr ?_ rfl
      simp only [Stage.plain, plainColumns_eq_iff.2 hnames]
  | @parens before phrase after token opening closing h hopening hclosing =>
    rw [Stage.reading_append, Stage.reading_append]
    cases before.foldlM Stage.step .select with
    | error e => rfl
    | ok stage =>
      change stage.reading _ = stage.reading _
      rw [Stage.reading_cons, Stage.reading_cons]
      cases hstep : stage.step token with
      | error e => rfl
      | ok stage' => exact h.reading hopening hclosing hstep
  | symm _ ih => exact ih.symm
  | trans _ _ ih ih' => exact ih.trans ih'

end PinQuery
