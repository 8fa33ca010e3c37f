import Mathlib.Data.List.Induction
import PinQuery.Proofs.Number
import PinQuery.Proofs.Query.Shape

/-!
# Canonical text reads back

The canonical text of a well-shaped query spells that query, up to places and quoting.

* `Expr.readsAs_canonical`: the canonical text of a condition spells the condition, as one factor
  whatever its root is: connectives stand between parentheses.
* `Query.WellShaped.readsAs`: the same for whole queries.
* `canonical_round_trip`: reading the canonical text of a well-shaped query gives the query back.
-/

namespace PinQuery

/-! ## Numbers and operands -/

/-- An integer but the least one is what the digits of its absolute value stand for, or the opposite
of it. -/
theorem Number.denotesNumber_natAbs {value : Int64} (h : value ≠ Int64.minValue) :
    DenotesNumber (Numeral.ofNat value.toInt.natAbs).text (.int (.ofNat value.toInt.natAbs)) ∧
      Number.int value = if value.toInt < 0 then
        (Number.int (.ofNat value.toInt.natAbs)).negate else .int (.ofNat value.toInt.natAbs) := by
  have hmin : value.toInt ≠ -9223372036854775808 := fun hmin => h (Int64.toInt_inj.1 hmin)
  have hlow := value.le_toInt
  have hhigh := value.toInt_lt
  have hfits : (value.toInt.natAbs : Int) ≤ maxInt := by
    unfold maxInt
    omega
  refine ⟨.int (fun c => Numeral.isFloatMark_ofNat) ?_, ?_⟩
  · rw [Numeral.digitsValue_ofNat, toInt_ofNat_of_le hfits]
  · split
    next hneg =>
      have habs := Int64.toInt_neg_ofNat_of_le (n := value.toInt.natAbs) (by omega)
      rw [negate, Number.int.injEq, ← Int64.toInt_inj, habs]
      omega
    next hneg =>
      rw [Number.int.injEq, ← Int64.toInt_inj, toInt_ofNat_of_le hfits]
      omega

/-- A number that can be written is a numeral behind an optional minus. -/
theorem Number.IsWritable.exists_numeral {number : Number} (h : number.IsWritable) :
    ∃ (negative : Bool) (n : Numeral) (value : Number), DenotesNumber n.text value ∧
      number.text.toList = signed negative n.text ∧
      number = if negative then value.negate else value := by
  cases number with
  | int value =>
    obtain ⟨hvalue, hnumber⟩ := denotesNumber_natAbs h
    exact ⟨value.toInt < 0, _, _, hvalue, text_int value, by simpa using hnumber⟩
  | float value =>
    cases value with
    | nan => cases h
    | infinite negative => cases h
    | finite negative m =>
      obtain ⟨n, htext, hmark, hround⟩ := text_float negative m
      obtain ⟨mark, hmem, hmark⟩ := List.any_eq_true.1 hmark
      rw [← n.ofNumeral_text] at hround
      have hdenotes := DenotesNumber.float hmem hmark (by rw [hround]; rfl)
      rw [hround] at hdenotes
      refine ⟨negative, n, _, hdenotes, htext, ?_⟩
      cases negative <;> rfl

/-- The text of a number spells the number. -/
theorem Number.IsWritable.readsAs {number : Number} (h : number.IsWritable) :
    ReadsAs number.text.toList fun tokens =>
      ∃ literal, SpellsNumber tokens literal ∧ literal.value = number := by
  obtain ⟨negative, n, value, hvalue, htext, hnumber⟩ := h.exists_numeral
  rw [htext]
  cases negative with
  | false =>
    refine ReadsAs.numeral n fun token hkind htoken => ?_
    rw [← htoken] at hvalue
    exact ⟨_, .unsigned hkind hvalue, hnumber.symm⟩
  | true =>
    refine ReadsAs.minus n fun sign token hsign hkind htoken => ?_
    rw [← htoken] at hvalue
    exact ⟨_, .minus hsign hkind hvalue, hnumber.symm⟩

/-- A name between backticks spells the name. -/
theorem IsQuotable.readsAs {text : String} (h : IsQuotable text) :
    ReadsAs (quoteName text).toList fun tokens =>
      ∃ token name, tokens = [token] ∧ token.name? = some name ∧ name.text = text := by
  have htext : (quoteName text).toList = '\x60' :: (text.toList ++ ['\x60']) := by
    simp [quoteName]
  rw [htext]
  refine ReadsAs.quotedName h fun token hkind htoken => ?_
  exact ⟨token, ⟨text, true, token.span⟩, rfl, by simp [Token.name?, hkind, htoken], rfl⟩

theorem Expr.IsOperand.readsAs {e : Expr} (h : e.IsOperand) :
    ReadsAs e.canonical.toList fun tokens => ∃ e', SpellsOperand tokens e' ∧ e'.bare = e.bare := by
  cases h with
  | @column name hname =>
    refine hname.readsAs.mono ?_
    rintro tokens ⟨token, name', rfl, hname', htext⟩
    refine ⟨.column name', .name hname', ?_⟩
    rw [Expr.bare, Expr.bare, Name.bare, Name.bare, htext]
  | @literal number hnumber =>
    refine hnumber.readsAs.mono ?_
    rintro tokens ⟨literal, hliteral, hvalue⟩
    refine ⟨.literal literal, .number hliteral, ?_⟩
    rw [Expr.bare, Expr.bare, Literal.bare, Literal.bare, hvalue]

/-! ## Conditions -/

/-- The sign of a comparison is one symbol. -/
theorem Comparison.exists_symbol (op : Comparison) : ∃ c tail kind,
    op.spelling.toList = c :: tail ∧ DenotesComparison kind op ∧
      ∀ rest, EndsWord rest → Scan.symbol? c (tail ++ rest) = some (kind, tail.length) := by
  cases op
  case' equal => refine ⟨'=', [], _, rfl, .equal, ?_⟩
  case' notEqual => refine ⟨'<', ['>'], _, rfl, .lessGreater, ?_⟩
  case' less => refine ⟨'<', [], _, rfl, .less, ?_⟩
  case' lessEqual => refine ⟨'<', ['='], _, rfl, .lessEqual, ?_⟩
  case' greater => refine ⟨'>', [], _, rfl, .greater, ?_⟩
  case' greaterEqual => refine ⟨'>', ['='], _, rfl, .greaterEqual, ?_⟩
  all_goals
    intro rest hrest
    obtain rfl | ⟨rest, rfl | rfl | rfl⟩ := hrest.cases <;> rfl

theorem Comparison.readsAs (op : Comparison) :
    ReadsAs op.spelling.toList fun tokens =>
      ∃ token : Token, tokens = [token] ∧ DenotesComparison token.kind op := by
  obtain ⟨c, tail, kind, hspelling, hkind, hsymbol⟩ := op.exists_symbol
  rw [hspelling]
  exact ReadsAs.symbol kind hsymbol fun token htoken => ⟨token, rfl, htoken ▸ hkind⟩

/-- The keyword of a connective. -/
def Connective.keyword : Connective → Keyword
  | .and => .and
  | .or => .or

theorem Connective.spelling_keyword (op : Connective) : op.keyword.spelling = op.spelling := by
  cases op <;> rfl

theorem Spells.connect {lefts rights : List Token} {left right : Expr} {token : Token}
    {op : Connective} (hleft : Spells .factor lefts left) (hkind : token.kind = .keyword op.keyword)
    (hright : Spells .factor rights right) :
    Spells .disjunction (lefts ++ token :: rights)
      (.logical op left right (left.span.cover right.span)) := by
  cases op with
  | and => exact .conjunction (.and (.factor hleft) hkind hright)
  | or => exact .or (.conjunction (.factor hleft)) hkind (.factor hright)

/-- Tokens spell a condition up to places and quoting. -/
def Expr.SpelledBy (e : Expr) (level : Level) (tokens : List Token) : Prop :=
  ∃ e', Spells level tokens e' ∧ e'.bare = e.bare

namespace Expr

theorem SpelledBy.disjunction {e : Expr} {tokens : List Token} (h : e.SpelledBy .factor tokens) :
    e.SpelledBy .disjunction tokens := by
  obtain ⟨e', hspells, hbare⟩ := h
  exact ⟨e', .conjunction (.factor hspells), hbare⟩

/-- Parentheses make a factor of any condition and leave no node. -/
theorem readsAs_paren {e : Expr} {cs : List Char} (h : ReadsAs cs (e.SpelledBy .disjunction)) :
    ReadsAs ('(' :: (cs ++ [')'])) (e.SpelledBy .factor) := by
  refine h.paren ?_
  rintro opening closing tokens hopening hclosing ⟨e', hspells, hbare⟩
  exact ⟨e', .paren hopening hspells hclosing, hbare⟩

theorem readsAs_not {e : Expr} {cs : List Char} (h : ReadsAs cs (e.SpelledBy .factor))
    (span : Span) :
    ReadsAs ("NOT".toList ++ ' ' :: cs) ((negation e span).SpelledBy .factor) := by
  refine (ReadsAs.keyword .not).space h ?_
  rintro _ tokens ⟨token, rfl, hkind⟩ ⟨e', hspells, hbare⟩
  exact ⟨_, .not hkind hspells, by simp [bare, hbare]⟩

/-- **The canonical text of a condition spells the condition.** -/
theorem readsAs_canonical {e : Expr} (h : e.IsCondition) :
    ReadsAs e.canonical.toList (e.SpelledBy .factor) := by
  induction h with
  | @comparison op left right span hleft hright =>
    have htext : (comparison op left right span).canonical.toList =
        left.canonical.toList ++ ' ' :: (op.spelling.toList ++ ' ' :: right.canonical.toList) := by
      simp [canonical]
    rw [htext]
    refine hleft.readsAs.between op.readsAs hright.readsAs ?_
    rintro lefts _ rights ⟨left', hleft', hl⟩ ⟨token, rfl, hop⟩ ⟨right', hright', hr⟩
    exact ⟨_, .comparison hleft' hop hright', by simp [bare, hl, hr]⟩
  | @logical op left right span _ _ ihleft ihright =>
    have htext : (logical op left right span).canonical.toList =
        '(' :: (left.canonical.toList ++ ' ' :: (op.keyword.spelling.toList ++
          ' ' :: right.canonical.toList) ++ [')']) := by
      simp [canonical, op.spelling_keyword]
    rw [htext]
    refine readsAs_paren (ihleft.between (.keyword op.keyword) ihright ?_)
    rintro lefts _ rights ⟨left', hleft', hl⟩ ⟨token, rfl, hkind⟩ ⟨right', hright', hr⟩
    exact ⟨_, hleft'.connect hkind hright', by simp [bare, hl, hr]⟩
  | @negation inner span _ ih =>
    -- a connective brings its own parentheses
    by_cases hlogical : inner.isLogical = true
    · have htext : (negation inner span).canonical.toList =
          "NOT".toList ++ ' ' :: inner.canonical.toList := by
        simp [canonical, hlogical]
      rw [htext]
      exact readsAs_not ih span
    · have htext : (negation inner span).canonical.toList =
          "NOT".toList ++ ' ' :: '(' :: (inner.canonical.toList ++ [')']) := by
        simp [canonical, hlogical]
      rw [htext]
      exact readsAs_not (readsAs_paren (ih.mono fun tokens => SpelledBy.disjunction)) span

end Expr

/-! ## Queries -/

/-- Tokens with a property and more tokens with another. -/
def Followed (P Q : List Token → Prop) (tokens : List Token) : Prop :=
  ∃ left right, tokens = left ++ right ∧ P left ∧ Q right

theorem ReadsAs.optionalClause {cs : List Char} {P Q : List Token → Prop} {text : Option String}
    (h : ReadsAs cs P) (keyword : Keyword) (habsent : text = none → Q [])
    (hpresent : ∀ t ∈ text, ReadsAs t.toList fun tokens =>
      ∀ token : Token, token.kind = .keyword keyword → Q (token :: tokens)) :
    ReadsAs (cs ++ (optionalClause keyword.spelling text).toList) (Followed P Q) := by
  cases text with
  | none =>
    simp only [PinQuery.optionalClause, String.toList_empty, List.append_nil]
    exact h.mono fun tokens htokens => ⟨tokens, [], by simp, htokens, habsent rfl⟩
  | some text =>
    have htext : (PinQuery.optionalClause keyword.spelling (some text)).toList =
        ' ' :: (keyword.spelling.toList ++ ' ' :: text.toList) := by
      simp [PinQuery.optionalClause]
    rw [htext]
    refine h.between (.keyword keyword) (hpresent text rfl) ?_
    rintro left _ right hleft ⟨token, rfl, hkind⟩ hright
    exact ⟨left, token :: right, rfl, hleft, hright token hkind⟩

theorem readsAs_columns {columns : List Name} (hne : columns ≠ [])
    (hquotable : ∀ name ∈ columns, IsQuotable name.text) :
    ReadsAs (", ".intercalate (columns.map fun column => quoteName column.text)).toList
      fun tokens => ∃ names, SpellsColumns tokens names ∧
        names.map Name.bare = columns.map Name.bare := by
  induction columns using List.reverseRecOn with
  | nil => exact absurd rfl hne
  | append_singleton columns name ih =>
    have hname := (hquotable name (by simp)).readsAs
    by_cases hnil : columns = []
    · subst hnil
      simp only [List.nil_append, List.map_cons, List.map_nil, String.intercalate_singleton]
      refine hname.mono ?_
      rintro _ ⟨token, name', rfl, hname', htext⟩
      exact ⟨[name'], .one hname', by simp [Name.bare, htext]⟩
    · have htext : (", ".intercalate ((columns ++ [name]).map fun column =>
          quoteName column.text)).toList =
          (", ".intercalate (columns.map fun column => quoteName column.text)).toList ++
            ',' :: ' ' :: (quoteName name.text).toList := by
        rw [List.map_append, String.intercalate_append_of_ne_nil (by simpa using hnil) (by simp)]
        simp
      rw [htext]
      have hcolumns := ih hnil fun name hmem => hquotable name (by simp [hmem])
      refine hcolumns.comma hname ?_
      rintro tokens _ comma ⟨names, hnames, hbare⟩ hcomma ⟨token, name', rfl, hname', htext⟩
      refine ⟨names ++ [name'], .more hnames hcomma hname', ?_⟩
      simp [hbare, Name.bare, htext]

namespace Query

/-- Tokens spell the columns and the target of a query. -/
def HeadSpelledBy (query : Query) (tokens : List Token) : Prop :=
  ∃ select columns from_ target names name, tokens = select :: (columns ++ [from_, target]) ∧
    select.kind = .keyword .select ∧ SpellsColumns columns names ∧
    names.map Name.bare = query.columns.map Name.bare ∧ from_.kind = .keyword .from_ ∧
    target.name? = some name ∧ name.text = query.target.text

theorem WellShaped.readsAs_head {query : Query} (h : query.WellShaped) :
    ReadsAs ("SELECT " ++ ", ".intercalate (query.columns.map fun column => quoteName column.text)
      ++ " FROM " ++ quoteName query.target.text).toList query.HeadSpelledBy := by
  have htext : ("SELECT " ++ ", ".intercalate (query.columns.map fun column =>
      quoteName column.text) ++ " FROM " ++ quoteName query.target.text).toList =
      "SELECT".toList ++ ' ' ::
        ((", ".intercalate (query.columns.map fun column => quoteName column.text)).toList ++
          ' ' :: ("FROM".toList ++ ' ' :: (quoteName query.target.text).toList)) := by
    simp
  rw [htext]
  have htarget : ReadsAs ("FROM".toList ++ ' ' :: (quoteName query.target.text).toList)
      fun tokens => ∃ from_ target name, tokens = [from_, target] ∧
        from_.kind = .keyword .from_ ∧ target.name? = some name ∧
        name.text = query.target.text := by
    refine (ReadsAs.keyword .from_).space h.target.readsAs ?_
    rintro _ _ ⟨from_, rfl, hfrom⟩ ⟨target, name, rfl, hname, htext⟩
    exact ⟨from_, target, name, rfl, hfrom, hname, htext⟩
  refine (ReadsAs.keyword .select).between
    (readsAs_columns h.columns_ne_nil h.columns) htarget ?_
  rintro _ columns _ ⟨select, rfl, hselect⟩ ⟨names, hcolumns, hbare⟩
    ⟨from_, target, name, rfl, hfrom, hname, htext⟩
  exact ⟨select, columns, from_, target, names, name, rfl, hselect, hcolumns, hbare, hfrom, hname,
    htext⟩

/-- Tokens spell a query up to places and quoting. -/
def SpelledBy (query : Query) (tokens : List Token) : Prop :=
  ∃ draft, SpellsDraft tokens draft ∧ ∀ stop, (draft.query stop).bare = query.bare

/-- A clause with a number, or its absence. -/
theorem readsAs_setting {cs : List Char} {P : List Token → Prop} (h : ReadsAs cs P)
    (keyword : Keyword) {setting : Option Literal}
    (hsetting : ∀ literal ∈ setting, literal.value.IsWritable) :
    ReadsAs (cs ++ (optionalClause keyword.spelling
      (setting.map fun literal => literal.value.text)).toList)
      (Followed P fun tokens => ∃ setting', SpellsSetting keyword tokens setting' ∧
        setting'.map Literal.bare = setting.map Literal.bare) := by
  refine h.optionalClause keyword ?_ ?_
  · intro hnone
    exact ⟨none, .absent, by rw [Option.map_eq_none_iff.1 hnone]⟩
  · intro text htext
    obtain ⟨literal, rfl, rfl⟩ := Option.map_eq_some_iff.1 htext
    refine (hsetting literal rfl).readsAs.mono ?_
    rintro tokens ⟨literal', hspells, hvalue⟩ token hkind
    exact ⟨some literal', .present hkind hspells, by simp [Literal.bare, hvalue]⟩

/-- The condition of a query, or its absence. -/
theorem readsAs_condition {cs : List Char} {P : List Token → Prop} (h : ReadsAs cs P)
    {condition : Option Expr} (hcondition : ∀ e ∈ condition, e.IsCondition) :
    ReadsAs (cs ++ (optionalClause "WHERE" (condition.map Expr.canonical)).toList)
      (Followed P fun tokens => ∃ condition', SpellsCondition tokens condition' ∧
        condition'.map Expr.bare = condition.map Expr.bare) := by
  refine h.optionalClause .where_ ?_ ?_
  · intro hnone
    exact ⟨none, .absent, by rw [Option.map_eq_none_iff.1 hnone]⟩
  · intro text htext
    obtain ⟨e, rfl, rfl⟩ := Option.map_eq_some_iff.1 htext
    refine (Expr.readsAs_canonical (hcondition e rfl)).mono ?_
    intro tokens htokens token hkind
    obtain ⟨e', hspells, hbare⟩ := htokens.disjunction
    exact ⟨some e', .present hkind hspells, by simp [hbare]⟩

/-- **The canonical text of a well-shaped query spells the query.** -/
theorem WellShaped.readsAs {query : Query} (h : query.WellShaped) :
    ReadsAs query.canonical.toList query.SpelledBy := by
  rw [canonical, String.toList_append, String.toList_append, String.toList_append]
  have hcondition := readsAs_condition h.readsAs_head h.condition
  have hclauses := readsAs_setting (readsAs_setting hcondition .rsleep h.sleep) .rspeed h.speed
  refine hclauses.mono ?_
  rintro _ ⟨_, speeds, rfl, ⟨_, sleeps, rfl, ⟨_, conditions, rfl, hhead, condition, hcondition,
    hcondition'⟩, sleep, hsleep, hsleep'⟩, speed, hspeed, hspeed'⟩
  obtain ⟨select, columns, from_, target, names, name, rfl, hselect, hcolumns, hcolumns', hfrom,
    hname, htext⟩ := hhead
  have hdraft := SpellsDraft.clauses hselect hcolumns hfrom hname hcondition hsleep hspeed
  refine ⟨_, by simpa using hdraft, fun stop => ?_⟩
  simp [bare, Draft.query, TargetName.bare, hcolumns', htext, hcondition', hsleep', hspeed']

end Query

theorem Query.SpelledBy.parse {query : Query} {source : String} (hfaults : faultsOf source = [])
    (h : query.SpelledBy (tokensOf source)) :
    ∃ query', Query.parse source = .ok query' ∧ query'.bare = query.bare := by
  obtain ⟨draft, hdraft, hbare⟩ := h
  have hfinal : (Token.endAt (endOf source)).kind = .endOfQuery := rfl
  refine ⟨_, parse_eq_ok_iff.2 ⟨hfaults, ?_⟩, hbare (lastStop (tokensOf source))⟩
  simpa [scan] using SpellsQuery.query hdraft .absent hfinal

theorem Query.WellShaped.parse_canonical {query : Query} (h : query.WellShaped) :
    ∃ query', Query.parse query.canonical = .ok query' ∧ query'.bare = query.bare := by
  obtain ⟨hfaults, hspelled⟩ := h.readsAs.tokensOf
  exact hspelled.parse hfaults

/-- **Canonical text round-trips.** The canonical text of a well-shaped query reads back as the
query, up to places and quoting. Every query that is read from a source is well-shaped, so that its
canonical text reads back as the same tree, which has the same canonical text again. -/
theorem canonical_round_trip :
    (∀ query : Query, query.WellShaped →
      ∃ query', Query.parse query.canonical = .ok query' ∧ query'.bare = query.bare) ∧
    (∀ source query, Query.parse source = .ok query → query.WellShaped ∧
      ∃ query', Query.parse query.canonical = .ok query' ∧ query'.bare = query.bare ∧
        query'.canonical = query.canonical) := by
  refine ⟨fun query h => h.parse_canonical, fun source query h => ?_⟩
  have hshaped := wellShaped_of_parse h
  obtain ⟨query', hparse, hbare⟩ := hshaped.parse_canonical
  refine ⟨hshaped, query', hparse, hbare, ?_⟩
  rw [← query'.canonical_bare, hbare, query.canonical_bare]

/-- The query ``SELECT `pin, 1` FROM `board` WHERE NOT (NOT (`a` < -0.0)) RSPEED -9600``. -/
def doubleNegation : Query where
  columns := [⟨"pin, 1", true, .empty 0⟩]
  target := ⟨"board", .empty 0⟩
  condition := some (.negation (.negation (.comparison .less (.column ⟨"a", true, .empty 0⟩)
    (.literal ⟨.float (.zero true), .empty 0⟩) (.empty 0)) (.empty 0)) (.empty 0))
  sleep := none
  speed := some ⟨.int (-9600), .empty 0⟩
  span := .empty 0

theorem canonical_round_trip_doubleNegation :
    ∃ query, Query.parse doubleNegation.canonical = .ok query ∧ query.bare = doubleNegation.bare ∧
      query.WellShaped := by
  have hshaped : doubleNegation.WellShaped := by
    refine ⟨by decide, by decide, by decide, ?_, ?_, ?_⟩
    · rintro e ⟨⟩
      exact .negation (.negation (.comparison (.column (by decide)) (.literal (by decide +kernel))))
    · rintro literal ⟨⟩
    · rintro literal ⟨⟩
      decide
  obtain ⟨query, hparse, hbare⟩ := canonical_round_trip.1 doubleNegation hshaped
  exact ⟨query, hparse, hbare, (canonical_round_trip.2 _ _ hparse).1⟩

end PinQuery
