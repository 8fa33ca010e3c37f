import PinQuery.Proofs.Query.Acceptance
import PinQuery.Proofs.Token.Words
import PinQuery.Query.Canonical

/-!
# The shape of queries

* `Query.bare` and `Expr.bare` forget where the parts of a query stand and which names were quoted.
  Queries that are equal up to these have the same bare query. The canonical text shows the bare
  query only (`Query.canonical_bare`).
* `Query.WellShaped` are the queries that canonical text can carry: names fit between backticks,
  numbers have a numeral, and the condition is one of comparisons of names and numbers.
* `wellShaped_of_parse`: every query that is read from a source is well-shaped.
-/

namespace PinQuery

/-! ## Queries up to places and quoting -/

/-- A name without its place and quoting. -/
def Name.bare (name : Name) : Name := ⟨name.text, false, .empty 0⟩

/-- A number without its place. -/
def Literal.bare (literal : Literal) : Literal := ⟨literal.value, .empty 0⟩

/-- A target without its place. -/
def TargetName.bare (target : TargetName) : TargetName := ⟨target.text, .empty 0⟩

/-- A node without places and quoting. -/
def Expr.bare : Expr → Expr
  | .column name => .column name.bare
  | .literal number => .literal number.bare
  | .comparison op left right _ => .comparison op left.bare right.bare (.empty 0)
  | .logical op left right _ => .logical op left.bare right.bare (.empty 0)
  | .negation inner _ => .negation inner.bare (.empty 0)

/-- A query without places and quoting. -/
def Query.bare (query : Query) : Query where
  columns := query.columns.map Name.bare
  target := query.target.bare
  condition := query.condition.map Expr.bare
  sleep := query.sleep.map Literal.bare
  speed := query.speed.map Literal.bare
  span := .empty 0

@[simp] theorem Expr.isLogical_bare (e : Expr) : e.bare.isLogical = e.isLogical := by
  cases e <;> rfl

theorem Expr.canonical_bare (e : Expr) : e.bare.canonical = e.canonical := by
  induction e with
  | column name => rfl
  | literal number => rfl
  | comparison op left right span ihl ihr => simp only [bare, canonical, ihl, ihr]
  | logical op left right span ihl ihr => simp only [bare, canonical, ihl, ihr]
  | negation inner span ih => simp only [bare, canonical, ih, isLogical_bare]

/-- The canonical text shows neither places nor quoting. -/
theorem Query.canonical_bare (query : Query) : query.bare.canonical = query.canonical := by
  simp [canonical, bare, Function.comp_def, Expr.canonical_bare, Name.bare, TargetName.bare,
    Literal.bare]

/-! ## Well-shaped queries -/

/-- A name that fits between backticks: it holds neither a backtick nor a line feed. -/
def IsQuotable (name : String) : Prop := ∀ c ∈ name.toList, Scan.isQuotable c = true

instance (name : String) : Decidable (IsQuotable name) := List.decidableBAll _ _

/-- A number that a sign and a numeral can stand for: any integer but the least one, whose opposite
does not fit, and any finite float. -/
def Number.IsWritable : Number → Prop
  | .int value => value ≠ Int64.minValue
  | .float value => value.isFinite = true

instance : (number : Number) → Decidable number.IsWritable
  | .int value => inferInstanceAs (Decidable (value ≠ Int64.minValue))
  | .float value => inferInstanceAs (Decidable (value.isFinite = true))

/-- The operands of comparisons. -/
inductive Expr.IsOperand : Expr → Prop
  | column {name : Name} (hname : IsQuotable name.text) : IsOperand (.column name)
  | literal {number : Literal} (hnumber : number.value.IsWritable) : IsOperand (.literal number)

/-- The conditions: comparisons of two operands, and connectives and negations of conditions. -/
inductive Expr.IsCondition : Expr → Prop
  | comparison {op : Comparison} {left right : Expr} {span : Span} (hleft : left.IsOperand)
      (hright : right.IsOperand) : IsCondition (.comparison op left right span)
  | logical {op : Connective} {left right : Expr} {span : Span} (hleft : left.IsCondition)
      (hright : right.IsCondition) : IsCondition (.logical op left right span)
  | negation {inner : Expr} {span : Span} (h : inner.IsCondition) :
      IsCondition (.negation inner span)

/-- The queries that canonical text can carry. -/
structure Query.WellShaped (query : Query) : Prop where
  columns_ne_nil : query.columns ≠ []
  columns : ∀ name ∈ query.columns, IsQuotable name.text
  target : IsQuotable query.target.text
  condition : ∀ e ∈ query.condition, e.IsCondition
  sleep : ∀ literal ∈ query.sleep, literal.value.IsWritable
  speed : ∀ literal ∈ query.speed, literal.value.IsWritable

/-! ## What is read is well-shaped -/

theorem Scan.isQuotable_of_isWordPart {c : Char} (h : isWordPart c = true) :
    isQuotable c = true := by
  by_contra hc
  simp only [isQuotable, Bool.and_eq_true, bne_iff_ne, ne_eq, not_and_or, not_not] at hc
  rcases hc with rfl | rfl <;> exact absurd h (by decide)

theorem Token.Formed.isQuotable {token : Token} {name : Name} (h : token.Formed)
    (hname : token.name? = some name) : IsQuotable name.text := by
  unfold Token.name? at hname
  split at hname
  next hkind =>
    cases hname
    exact fun c hc => Scan.isQuotable_of_isWordPart (h.name hkind c hc)
  next hkind =>
    cases hname
    obtain ⟨inside, hinside, htext⟩ := h.quotedName hkind
    simpa [IsQuotable, htext] using hinside
  next => cases hname

theorem DenotesNumber.isWritable {numeral : List Char} {value : Number}
    (h : DenotesNumber numeral value) : value.IsWritable ∧ value.negate.IsWritable := by
  cases h with
  | @int value hmark hvalue =>
    have hnonneg : 0 ≤ value.toInt := by omega
    have hmin : Int64.minValue.toInt = -9223372036854775808 := rfl
    constructor
    · intro h
      rw [h, hmin] at hnonneg
      omega
    · intro h
      have hvalue : value = Int64.minValue := by
        rw [← Int64.neg_neg (a := value), h]
        rfl
      rw [hvalue, hmin] at hnonneg
      omega
  | float hmem hmark hfinite =>
    refine ⟨hfinite, ?_⟩
    generalize (Decimal.ofNumeral numeral).round false = value at hfinite
    cases value <;> simp_all [Number.negate, Number.IsWritable, Binary64.neg, Binary64.isFinite]

theorem SpellsNumber.isWritable {tokens : List Token} {literal : Literal}
    (h : SpellsNumber tokens literal) : literal.value.IsWritable := by
  cases h with
  | unsigned hkind hvalue => exact hvalue.isWritable.1
  | plus hsign hkind hvalue => exact hvalue.isWritable.1
  | minus hsign hkind hvalue => exact hvalue.isWritable.2

theorem SpellsSetting.isWritable {keyword : Keyword} {tokens : List Token}
    {setting : Option Literal} (h : SpellsSetting keyword tokens setting) :
    ∀ literal ∈ setting, literal.value.IsWritable := by
  cases h with
  | absent => simp
  | present hkind h => simpa using h.isWritable

section

variable {tokens : List Token} (hformed : ∀ token ∈ tokens, token.Formed)
include hformed

theorem SpellsOperand.isOperand {e : Expr} (h : SpellsOperand tokens e) : e.IsOperand := by
  cases h with
  | name hname => exact .column ((hformed _ (by simp)).isQuotable hname)
  | number hnumber => exact .literal hnumber.isWritable

theorem Spells.isCondition {level : Level} {e : Expr} (h : Spells level tokens e) :
    e.IsCondition := by
  induction h with
  | conjunction _ ih => exact ih hformed
  | or _ _ _ ihleft ihright =>
    exact .logical (ihleft fun t ht => hformed t (by simp [ht]))
      (ihright fun t ht => hformed t (by simp [ht]))
  | factor _ ih => exact ih hformed
  | and _ _ _ ihleft ihright =>
    exact .logical (ihleft fun t ht => hformed t (by simp [ht]))
      (ihright fun t ht => hformed t (by simp [ht]))
  | not _ _ ih => exact .negation (ih fun t ht => hformed t (by simp [ht]))
  | paren _ _ _ ih => exact ih fun t ht => hformed t (by simp [ht])
  | comparison hleft _ hright =>
    exact .comparison (hleft.isOperand fun t ht => hformed t (by simp [ht]))
      (hright.isOperand fun t ht => hformed t (by simp [ht]))

theorem SpellsColumns.isQuotable {names : List Name} (h : SpellsColumns tokens names) :
    names ≠ [] ∧ ∀ name ∈ names, IsQuotable name.text := by
  induction h with
  | one hname =>
    refine ⟨by simp, fun name hmem => ?_⟩
    rw [List.mem_singleton.1 hmem]
    exact (hformed _ (by simp)).isQuotable hname
  | more h hcomma hname ih =>
    refine ⟨by simp, fun name hmem => ?_⟩
    rcases List.mem_append.1 hmem with hmem | hmem
    · exact (ih fun t ht => hformed t (by simp [ht])).2 name hmem
    · rw [List.mem_singleton.1 hmem]
      exact (hformed _ (by simp)).isQuotable hname

theorem SpellsQuery.wellShaped {query : Query} (h : SpellsQuery tokens query) :
    query.WellShaped := by
  cases h with
  | query hdraft hsemicolon hfinal =>
    cases hdraft with
    | clauses hselect hcolumns hfrom htarget hcondition hsleep hspeed =>
      obtain ⟨hne, hquotable⟩ := hcolumns.isQuotable fun t ht => hformed t (by simp [ht])
      refine ⟨hne, hquotable, (hformed _ (by simp)).isQuotable htarget, ?_, ?_, ?_⟩
      · cases hcondition with
        | absent => simp [Draft.query]
        | present hkind h =>
          have := h.isCondition fun t ht => hformed t (by simp [ht])
          simpa [Draft.query] using this
      · exact hsleep.isWritable
      · exact hspeed.isWritable

end

/-- **Every query that is read from a source is well-shaped.** -/
theorem wellShaped_of_parse {source : String} {query : Query}
    (h : Query.parse source = .ok query) : query.WellShaped :=
  (parse_eq_ok_iff.1 h).2.wellShaped fun _ => formed_of_mem_scan

end PinQuery
