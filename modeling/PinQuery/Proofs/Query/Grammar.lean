import PinQuery.Query.Reader

/-!
# The grammar of queries

The grammar in the header of the reader, as relations between tokens and what they spell.

* `DenotesNumber` says which number an unsigned numeral stands for, and so which numerals fit.
* `SpellsNumber`, `SpellsOperand` and `DenotesComparison` are the terminals with a value.
* `Spells` are the conditions, one level of binding strength each: a disjunction is a chain of
  conjunctions, a conjunction a chain of factors. Chains grow at their right end, so the tree of a
  chain leans to the left.
* `SpellsDraft` are the clauses up to the end of a query, `SpellsQuery` the whole query with its end.

The trees carry their spans: a connective or comparison spans its operands, and a negation runs
from its `NOT` to the last token behind it, parentheses included.
-/

namespace PinQuery

/-! ## Numbers -/

/-- The number that an unsigned numeral stands for. Without point and exponent it is the 64-bit
integer with the value of the digits, otherwise the nearest float, which has to be finite. -/
inductive DenotesNumber (numeral : List Char) : Number → Prop
  | int {value : Int64} (hmark : ∀ c ∈ numeral, Number.isFloatMark c = false)
      (hvalue : value.toInt = Decimal.digitsValue numeral) : DenotesNumber numeral (.int value)
  | float {mark : Char} (hmem : mark ∈ numeral) (hmark : Number.isFloatMark mark = true)
      (hfinite : ((Decimal.ofNumeral numeral).round false).isFinite = true) :
      DenotesNumber numeral (.float ((Decimal.ofNumeral numeral).round false))

/-- A numeral with an optional sign. -/
inductive SpellsNumber : List Token → Literal → Prop
  | unsigned {token : Token} {value : Number} (hkind : token.kind = .number)
      (hvalue : DenotesNumber token.text.toList value) : SpellsNumber [token] ⟨value, token.span⟩
  | plus {sign token : Token} {value : Number} (hsign : sign.kind = .plus)
      (hkind : token.kind = .number) (hvalue : DenotesNumber token.text.toList value) :
      SpellsNumber [sign, token] ⟨value, sign.span.cover token.span⟩
  | minus {sign token : Token} {value : Number} (hsign : sign.kind = .minus)
      (hkind : token.kind = .number) (hvalue : DenotesNumber token.text.toList value) :
      SpellsNumber [sign, token] ⟨value.negate, sign.span.cover token.span⟩

/-- A name or a number. -/
inductive SpellsOperand : List Token → Expr → Prop
  | name {token : Token} {name : Name} (hname : token.name? = some name) :
      SpellsOperand [token] (.column name)
  | number {tokens : List Token} {literal : Literal} (h : SpellsNumber tokens literal) :
      SpellsOperand tokens (.literal literal)

/-- The signs of comparisons. The unequal sign has two forms, and the double equal sign is none. -/
inductive DenotesComparison : Kind → Comparison → Prop
  | equal : DenotesComparison .equal .equal
  | bangEqual : DenotesComparison .bangEqual .notEqual
  | lessGreater : DenotesComparison .lessGreater .notEqual
  | less : DenotesComparison .less .less
  | lessEqual : DenotesComparison .lessEqual .lessEqual
  | greater : DenotesComparison .greater .greater
  | greaterEqual : DenotesComparison .greaterEqual .greaterEqual

/-! ## Conditions -/

/-- The levels of binding strength, the weakest first. -/
inductive Level
  | disjunction
  | conjunction
  | factor
deriving DecidableEq, Repr

/-- The conditions of every level. -/
inductive Spells : Level → List Token → Expr → Prop
  | conjunction {tokens : List Token} {e : Expr} (h : Spells .conjunction tokens e) :
      Spells .disjunction tokens e
  | or {lefts rights : List Token} {left right : Expr} {token : Token}
      (hleft : Spells .disjunction lefts left) (hkind : token.kind = .keyword .or)
      (hright : Spells .conjunction rights right) :
      Spells .disjunction (lefts ++ token :: rights)
        (.logical .or left right (left.span.cover right.span))
  | factor {tokens : List Token} {e : Expr} (h : Spells .factor tokens e) :
      Spells .conjunction tokens e
  | and {lefts rights : List Token} {left right : Expr} {token : Token}
      (hleft : Spells .conjunction lefts left) (hkind : token.kind = .keyword .and)
      (hright : Spells .factor rights right) :
      Spells .conjunction (lefts ++ token :: rights)
        (.logical .and left right (left.span.cover right.span))
  | not {token : Token} {tokens : List Token} {e : Expr} (hkind : token.kind = .keyword .not)
      (h : Spells .factor tokens e) :
      Spells .factor (token :: tokens) (.negation e ⟨token.span.start, lastStop tokens⟩)
  | paren {opening closing : Token} {tokens : List Token} {e : Expr}
      (hopening : opening.kind = .leftParen) (h : Spells .disjunction tokens e)
      (hclosing : closing.kind = .rightParen) :
      Spells .factor (opening :: (tokens ++ [closing])) e
  | comparison {lefts rights : List Token} {left right : Expr} {token : Token} {op : Comparison}
      (hleft : SpellsOperand lefts left) (hop : DenotesComparison token.kind op)
      (hright : SpellsOperand rights right) :
      Spells .factor (lefts ++ token :: rights)
        (.comparison op left right (left.span.cover right.span))

/-! ## Queries -/

/-- Names with commas between them. -/
inductive SpellsColumns : List Token → List Name → Prop
  | one {token : Token} {name : Name} (hname : token.name? = some name) :
      SpellsColumns [token] [name]
  | more {tokens : List Token} {names : List Name} {comma token : Token} {name : Name}
      (h : SpellsColumns tokens names) (hcomma : comma.kind = .comma)
      (hname : token.name? = some name) :
      SpellsColumns (tokens ++ [comma, token]) (names ++ [name])

/-- A condition behind its keyword, or nothing. -/
inductive SpellsCondition : List Token → Option Expr → Prop
  | absent : SpellsCondition [] none
  | present {token : Token} {tokens : List Token} {e : Expr} (hkind : token.kind = .keyword .where_)
      (h : Spells .disjunction tokens e) : SpellsCondition (token :: tokens) (some e)

/-- A number behind a given keyword, or nothing. -/
inductive SpellsSetting (keyword : Keyword) : List Token → Option Literal → Prop
  | absent : SpellsSetting keyword [] none
  | present {token : Token} {tokens : List Token} {literal : Literal}
      (hkind : token.kind = .keyword keyword) (h : SpellsNumber tokens literal) :
      SpellsSetting keyword (token :: tokens) (some literal)

/-- The clauses of a query. -/
inductive SpellsDraft : List Token → Draft → Prop
  | clauses {select from_ target : Token} {columns conditions sleeps speeds : List Token}
      {names : List Name} {name : Name} {condition : Option Expr} {sleep speed : Option Literal}
      (hselect : select.kind = .keyword .select) (hcolumns : SpellsColumns columns names)
      (hfrom : from_.kind = .keyword .from_) (htarget : target.name? = some name)
      (hcondition : SpellsCondition conditions condition)
      (hsleep : SpellsSetting .rsleep sleeps sleep) (hspeed : SpellsSetting .rspeed speeds speed) :
      SpellsDraft (select :: (columns ++ from_ :: target :: (conditions ++ (sleeps ++ speeds))))
        ⟨select.span.start, names, ⟨name.text, name.span⟩, condition, sleep, speed⟩

/-- A semicolon, or nothing. -/
inductive SpellsSemicolon : List Token → Prop
  | absent : SpellsSemicolon []
  | present {token : Token} (hkind : token.kind = .semicolon) : SpellsSemicolon [token]

/-- A whole query with the token of its end. The query spans everything before that. -/
inductive SpellsQuery : List Token → Query → Prop
  | query {tokens semicolons : List Token} {draft : Draft} {final : Token}
      (hdraft : SpellsDraft tokens draft) (hsemicolon : SpellsSemicolon semicolons)
      (hfinal : final.kind = .endOfQuery) :
      SpellsQuery (tokens ++ semicolons ++ [final]) (draft.query (lastStop (tokens ++ semicolons)))

/-! ## Terminals of the reader -/

theorem Kind.comparison?_eq_some_iff {kind : Kind} {op : Comparison} :
    kind.comparison? = some op ↔ DenotesComparison kind op := by
  constructor
  · intro h
    unfold Kind.comparison? at h
    split at h <;> cases h <;> constructor
  · rintro (_ | _) <;> rfl

namespace Number

theorem toInt_ofNat_of_le {n : Nat} (h : (n : Int) ≤ maxInt) : (Int64.ofNat n).toInt = n := by
  rw [Int64.toInt_ofNat_of_lt]
  unfold maxInt at h
  omega

/-- The reader takes exactly the numerals that denote a number. -/
theorem ofNumeral?_eq_some_iff {numeral : List Char} {number : Number} :
    ofNumeral? numeral = some number ↔ DenotesNumber numeral number := by
  unfold ofNumeral?
  split
  next hmark =>
    obtain ⟨mark, hmem, hmark⟩ := List.any_eq_true.1 hmark
    dsimp only
    split
    next hfinite =>
      constructor
      · rintro ⟨⟩
        exact .float hmem hmark hfinite
      · rintro (⟨hnone, -⟩ | _)
        · exact absurd hmark (by simp [hnone mark hmem])
        · rfl
    next hfinite =>
      constructor
      · rintro ⟨⟩
      · rintro (⟨hnone, -⟩ | ⟨-, -, hfinite'⟩)
        · exact absurd hmark (by simp [hnone mark hmem])
        · exact absurd hfinite' hfinite
  next hmark =>
    have hnone : ∀ c ∈ numeral, isFloatMark c = false := by simpa using hmark
    dsimp only
    split
    next hle =>
      constructor
      · rintro ⟨⟩
        exact .int hnone (toInt_ofNat_of_le hle)
      · rintro (⟨-, hvalue⟩ | ⟨hmem, hmark', -⟩)
        · rw [← toInt_ofNat_of_le hle] at hvalue
          rw [Int64.toInt_inj.1 hvalue]
        · exact absurd hmark' (by simp [hnone _ hmem])
    next hgt =>
      constructor
      · rintro ⟨⟩
      · rintro (⟨-, hvalue⟩ | ⟨hmem, hmark', -⟩)
        · have := Int64.toInt_lt ‹Int64›
          unfold maxInt at hgt
          omega
        · exact absurd hmark' (by simp [hnone _ hmem])

end Number

/-- A sign, or nothing. -/
inductive SpellsSign : List Token → Option Sign → Prop
  | absent : SpellsSign [] none
  | present {token : Token} {sign : Sign} (hsign : token.sign? = some sign) :
      SpellsSign [token] (some sign)

theorem Token.sign?_eq_some_iff {token : Token} {sign : Sign} :
    token.sign? = some sign ↔ token.kind = .plus ∧ sign = ⟨false, token.span.start⟩ ∨
      token.kind = .minus ∧ sign = ⟨true, token.span.start⟩ := by
  unfold Token.sign?
  split
  next hkind => simp [hkind, eq_comm (a := sign)]
  next hkind => simp [hkind, eq_comm (a := sign)]
  next hplus hminus =>
    have hplus : token.kind ≠ .plus := hplus
    have hminus : token.kind ≠ .minus := hminus
    simp [hplus, hminus]

theorem Token.literal_eq_ok_iff {token : Token} {sign : Option Sign} {literal : Literal} :
    token.literal sign = .ok literal ↔ ∃ value, DenotesNumber token.text.toList value ∧
      literal = match sign with
        | none => ⟨value, token.span⟩
        | some sign =>
          ⟨if sign.negative then value.negate else value, ⟨sign.start, token.span.stop⟩⟩ := by
  simp only [← Number.ofNumeral?_eq_some_iff]
  unfold Token.literal
  cases Number.ofNumeral? token.text.toList with
  | none => simp
  | some value =>
    cases sign with
    | none => simp [eq_comm (a := literal)]
    | some sign => simp [eq_comm (a := literal)]

/-- A number is read as an optional sign and a numeral that fits. -/
theorem spellsNumber_iff {tokens : List Token} {literal : Literal} :
    SpellsNumber tokens literal ↔ ∃ signs sign token, tokens = signs ++ [token] ∧
      SpellsSign signs sign ∧ token.kind = .number ∧ token.literal sign = .ok literal := by
  constructor
  · rintro (⟨hkind, hvalue⟩ | ⟨hsign, hkind, hvalue⟩ | ⟨hsign, hkind, hvalue⟩)
    · exact ⟨[], none, _, rfl, .absent, hkind, Token.literal_eq_ok_iff.2 ⟨_, hvalue, rfl⟩⟩
    · exact ⟨[_], _, _, rfl, .present (Token.sign?_eq_some_iff.2 (.inl ⟨hsign, rfl⟩)), hkind,
        Token.literal_eq_ok_iff.2 ⟨_, hvalue, rfl⟩⟩
    · exact ⟨[_], _, _, rfl, .present (Token.sign?_eq_some_iff.2 (.inr ⟨hsign, rfl⟩)), hkind,
        Token.literal_eq_ok_iff.2 ⟨_, hvalue, rfl⟩⟩
  · rintro ⟨signs, sign, token, rfl, hsign, hkind, hliteral⟩
    obtain ⟨value, hvalue, rfl⟩ := Token.literal_eq_ok_iff.1 hliteral
    cases hsign with
    | absent => exact .unsigned hkind hvalue
    | present hsign =>
      rcases Token.sign?_eq_some_iff.1 hsign with ⟨hplus, rfl⟩ | ⟨hminus, rfl⟩
      · exact .plus hplus hkind hvalue
      · exact .minus hminus hkind hvalue

end PinQuery
