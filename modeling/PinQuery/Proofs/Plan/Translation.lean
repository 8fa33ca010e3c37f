import PinQuery.Proofs.Number
import PinQuery.Proofs.Plan.Analysis
import PinQuery.Proofs.Query.Shape
import PinQuery.Proofs.Target.Expression

/-!
# Conditions keep their meaning

The text of a supported condition, read as a C expression, is the tree of the condition.

* `Expr.target` is the tree of a condition in the target language, and `Expr.holds` its truth.
* `C.LexesTo`: how the text of a condition is cut into tokens, before the end of a word.
* `Expr.IsSupported.reads`: the text of a supported condition forms its tree.
* `translation_preserves_meaning`: the text has that reading and no other, it holds where the
  condition holds, and it determines the condition up to places and quoting.

Infinite floats and NaNs have no numeral in C, so all of this is about finite numbers.
-/

namespace PinQuery

/-! ## Trees of conditions -/

/-- The operator of a comparison. -/
def Comparison.operator : Comparison → C.Operator
  | .equal => .equal
  | .notEqual => .notEqual
  | .less => .less
  | .lessEqual => .lessEqual
  | .greater => .greater
  | .greaterEqual => .greaterEqual

/-- The operator of a connective. -/
def Connective.operator : Connective → C.Operator
  | .and => .and
  | .or => .or

/-- A number as a constant. -/
def Number.constant : Number → C.Constant
  | .int value => .int value.toInt
  | .float value => .float value

/-- Finite numbers: all integers and the finite floats. -/
def Number.IsFinite : Number → Prop
  | .int _ => True
  | .float value => value.isFinite = true

instance : (number : Number) → Decidable number.IsFinite
  | .int _ => inferInstanceAs (Decidable True)
  | .float value => inferInstanceAs (Decidable (value.isFinite = true))

namespace Expr

/-- The tree of a condition in the target language. -/
def target : Expr → C.Tree
  | .column name => .var name.text
  | .literal number => .constant number.value.constant
  | .comparison op left right _ => .binary op.operator left.target right.target
  | .logical op left right _ => .binary op.operator left.target right.target
  | .negation inner _ => .not inner.target

/-- The numbers in a condition. -/
def numbers : Expr → List Number
  | .column _ => []
  | .literal number => [number.value]
  | .comparison _ left right _ => left.numbers ++ right.numbers
  | .logical _ left right _ => left.numbers ++ right.numbers
  | .negation inner _ => inner.numbers

/-- All numbers of a condition are finite. -/
def HasFiniteNumbers (e : Expr) : Prop := ∀ number ∈ e.numbers, number.IsFinite

theorem names_target (e : Expr) : e.target.names = e.names := by
  induction e with
  | column name => rfl
  | literal number => rfl
  | comparison op left right span ihleft ihright =>
    simp only [target, C.Tree.names, names, ihleft, ihright]
  | logical op left right span ihleft ihright =>
    simp only [target, C.Tree.names, names, ihleft, ihright]
  | negation inner span ih => simp only [target, C.Tree.names, names, ih]

end Expr

theorem Comparison.operator_inj {op op' : Comparison} (h : op.operator = op'.operator) :
    op = op' := by
  cases op <;> cases op' <;> first | rfl | cases h

theorem Connective.operator_inj {op op' : Connective} (h : op.operator = op'.operator) :
    op = op' := by
  cases op <;> cases op' <;> first | rfl | cases h

theorem Comparison.operator_ne_operator (op : Comparison) (op' : Connective) :
    op.operator ≠ op'.operator := by
  cases op <;> cases op' <;> simp [operator, Connective.operator]

theorem Number.constant_inj {number number' : Number} (h : number.constant = number'.constant) :
    number = number' := by
  cases number <;> cases number' <;> simp_all [constant, Int64.toInt_inj]

/-- **The tree in the target language determines a condition up to places and quoting.** -/
theorem Expr.bare_eq_of_target_eq {e e' : Expr} (h : e.target = e'.target) : e.bare = e'.bare := by
  induction e generalizing e' with
  | column name =>
    cases e' with
    | column name' => simp_all [target, bare, Name.bare]
    | _ => simp [target] at h
  | literal number =>
    cases e' with
    | literal number' =>
      have hvalue := Number.constant_inj (C.Tree.constant.inj h)
      simp [bare, Literal.bare, hvalue]
    | _ => simp [target] at h
  | comparison op left right span ihleft ihright =>
    cases e' with
    | comparison op' left' right' span' =>
      obtain ⟨hop, hleft, hright⟩ := C.Tree.binary.inj h
      rw [bare, bare, Comparison.operator_inj hop, ihleft hleft, ihright hright]
    | logical op' left' right' span' =>
      exact absurd (C.Tree.binary.inj h).1 (op.operator_ne_operator op')
    | _ => simp [target] at h
  | logical op left right span ihleft ihright =>
    cases e' with
    | logical op' left' right' span' =>
      obtain ⟨hop, hleft, hright⟩ := C.Tree.binary.inj h
      rw [bare, bare, Connective.operator_inj hop, ihleft hleft, ihright hright]
    | comparison op' left' right' span' =>
      exact absurd (C.Tree.binary.inj h).1.symm (op'.operator_ne_operator op)
    | _ => simp [target] at h
  | negation inner span ih =>
    cases e' with
    | negation inner' span' => rw [bare, bare, ih (C.Tree.not.inj h)]
    | _ => simp [target] at h

/-! ## Truth of conditions -/

section

variable {V : Type} (S : C.Semantics V) (assignment : String → V)

/-- The value of an operand when the pins have given values. -/
def Expr.value : Expr → V
  | .column name => assignment name.text
  | .literal number => S.constant number.value.constant
  | _ => S.ofBool false

/-- Whether a condition holds when the pins have given values. -/
def Expr.holds : Expr → Bool
  | .comparison op left right _ => S.compare op (left.value S assignment) (right.value S assignment)
  | .logical .and left right _ => left.holds && right.holds
  | .logical .or left right _ => left.holds || right.holds
  | .negation inner _ => !inner.holds
  | _ => false

theorem Expr.IsSupportedOperand.value_target {e : Expr} (h : e.IsSupportedOperand) :
    e.target.value S assignment = e.value S assignment := by
  cases h <;> rfl

/-- The tree of a condition is true where the condition holds. -/
theorem Expr.IsSupported.isTrue_target {e : Expr} (h : e.IsSupported) :
    S.isTrue (e.target.value S assignment) = e.holds S assignment := by
  induction h with
  | @comparison op left right span hleft hright =>
    rw [target, C.Tree.value, S.isTrue_ofBool, hleft.value_target, hright.value_target]
    cases op <;> rfl
  | @logical op left right span _ _ ihleft ihright =>
    rw [target, C.Tree.value, S.isTrue_ofBool]
    cases op with
    | and => rw [Connective.operator, C.Operator.holds, ihleft, ihright, holds]
    | or => rw [Connective.operator, C.Operator.holds, ihleft, ihright, holds]
  | @negation inner span _ _ ih =>
    rw [target, C.Tree.value, S.isTrue_ofBool, ih, holds]

end

/-! ## Tokens of conditions -/

namespace C

open Text

/-- Before the end of a word, a text is cut into given tokens. -/
def LexesTo (cs : List Char) (tokens : List Token) : Prop :=
  ∀ rest, EndsWord rest → lex (cs ++ rest) = (lex rest).map (tokens ++ ·)

theorem lex_separator {c : Char} (hc : Scan.isSeparator c = true) (rest : List Char) :
    lex (c :: rest) = lex rest := by
  rw [lex, if_pos hc]

theorem lex_token {c : Char} {tail rest : List Char} {token : Token}
    (hc : Scan.isSeparator c = false)
    (htoken : token? c (tail ++ rest) = some (token, tail.length)) :
    lex (c :: tail ++ rest) = (lex rest).map (token :: ·) := by
  rw [List.cons_append, lex, if_neg (by simp [hc]), htoken]
  simp

theorem lex_symbol {c : Char} {tail rest : List Char} {token : Token}
    (hsymbol : symbol? c (tail ++ rest) = some (token, tail.length)) :
    lex (c :: tail ++ rest) = (lex rest).map (token :: ·) := by
  have hc : c ∈ ['|', '&', '=', '!', '<', '>', '+', '-', '(', ')'] := by
    unfold symbol? at hsymbol
    split at hsymbol <;> simp at hsymbol ⊢
  have hclass : ['|', '&', '=', '!', '<', '>', '+', '-', '(', ')'].any (fun d =>
      Scan.isSeparator d || Scan.isWordStart d || d.isDigit) = false := by decide
  have hnone := List.any_eq_false.1 hclass c hc
  simp only [Bool.or_eq_true, not_or, Bool.not_eq_true] at hnone
  obtain ⟨⟨hsep, hword⟩, hdigit⟩ := hnone
  refine lex_token hsep ?_
  simp [token?, hword, hdigit, hsymbol]

namespace LexesTo

variable {cs ds : List Char} {tokens tokens' : List Token}

theorem name {c : Char} {tail : List Char} (hc : Scan.isWordStart c = true)
    (htail : ∀ d ∈ tail, Scan.isWordPart d) :
    LexesTo (c :: tail) [.name (String.ofList (c :: tail))] := by
  intro rest hrest
  refine lex_token (Scan.isSeparator_eq_false rfl hc) ?_
  rw [token?, if_pos hc, takeWhile_append_of_breaks htail (hrest.breaks rfl)]

theorem numeral (n : Numeral) : LexesTo n.text [.numeral n.text] := by
  intro rest hrest
  obtain ⟨c, tail, htext, hdigit⟩ := n.exists_text_eq_cons
  have hstart := Scan.isWordStart_eq_false_of_isDigit hdigit
  rw [htext]
  refine lex_token (Scan.isSeparator_eq_false rfl hdigit) ?_
  rw [token?, if_neg (by simp [hstart]), if_pos hdigit,
    n.numberTail_append htext (hrest.breaks rfl)]

/-- Two texts with an operator between them. -/
theorem between {c : Char} {tail : List Char} {op : Token} (h : LexesTo cs tokens)
    (hop : ∀ rest, symbol? c (tail ++ ' ' :: rest) = some (op, tail.length))
    (h' : LexesTo ds tokens') :
    LexesTo (cs ++ ' ' :: (c :: tail ++ ' ' :: ds)) (tokens ++ op :: tokens') := by
  intro rest hrest
  have hassoc : cs ++ ' ' :: (c :: tail ++ ' ' :: ds) ++ rest =
      cs ++ ' ' :: (c :: tail ++ ' ' :: (ds ++ rest)) := by
    simp
  have hright : lex (c :: tail ++ ' ' :: (ds ++ rest)) = (lex rest).map (op :: tokens' ++ ·) := by
    rw [lex_symbol (hop _), lex_separator rfl, h' rest hrest, Option.map_map]
    rfl
  rw [hassoc, h _ (by simp [EndsWord]), lex_separator rfl, hright, Option.map_map]
  simp [Function.comp_def]

/-- A text behind a sign of one character. -/
theorem behind {c : Char} {token : Token} (h : LexesTo cs tokens)
    (hc : ∀ rest, symbol? c (cs ++ rest) = some (token, 0)) :
    LexesTo (c :: cs) (token :: tokens) := by
  intro rest hrest
  have htoken : lex (c :: [] ++ (cs ++ rest)) = (lex (cs ++ rest)).map (token :: ·) :=
    lex_symbol (hc rest)
  rw [List.cons_append]
  rw [List.singleton_append] at htoken
  rw [htoken, h rest hrest, Option.map_map]
  rfl

theorem paren (h : LexesTo cs tokens) :
    LexesTo ('(' :: (cs ++ [')'])) (.opening :: (tokens ++ [.closing])) := by
  have hclosing : LexesTo (cs ++ [')']) (tokens ++ [.closing]) := by
    intro rest hrest
    have htoken : lex (')' :: [] ++ rest) = (lex rest).map (.closing :: ·) := lex_symbol rfl
    rw [List.singleton_append] at htoken
    rw [List.append_assoc, List.singleton_append, h _ (by simp [EndsWord]), htoken, Option.map_map]
    simp [Function.comp_def]
  exact hclosing.behind fun rest => rfl

theorem lex_eq (h : LexesTo cs tokens) : lex cs = some tokens := by
  have hnil := h [] (by simp [EndsWord])
  rw [List.append_nil] at hnil
  rw [hnil, lex]
  simp

end LexesTo

end C

/-! ## Texts of conditions -/

theorem C.Derives.signed (n : Numeral) (negative : Bool) : ∃ tokens,
    C.LexesTo (signed negative n.text) tokens ∧
      C.Derives C.unary tokens (.constant (.ofNumeral negative n.text)) := by
  cases negative with
  | false => exact ⟨_, .numeral n, .constant _⟩
  | true => exact ⟨_, (C.LexesTo.numeral n).behind fun rest => rfl, .minus _⟩

/-- The text of a finite number forms the number. -/
theorem Number.IsFinite.reads {number : Number} (h : number.IsFinite) : ∃ tokens,
    C.LexesTo number.text.toList tokens ∧
      C.Derives C.unary tokens (.constant number.constant) := by
  cases number with
  | int value =>
    have hconstant : C.Constant.ofNumeral (value.toInt < 0)
        (Numeral.ofNat value.toInt.natAbs).text = (Number.int value).constant := by
      have hmark : (Numeral.ofNat value.toInt.natAbs).text.any isFloatMark = false := by
        simpa using fun c => Numeral.isFloatMark_ofNat
      rw [C.Constant.ofNumeral, if_neg (by simp [hmark]), Numeral.digitsValue_ofNat, constant]
      congr 1
      split
      next hneg =>
        have := of_decide_eq_true hneg
        omega
      next hneg =>
        have : ¬ value.toInt < 0 := by simpa using hneg
        omega
    rw [text_int, ← hconstant]
    exact C.Derives.signed _ _
  | float value =>
    cases value with
    | nan => cases h
    | infinite negative => cases h
    | finite negative m =>
      obtain ⟨n, htext, hmark, hround⟩ := text_float negative m
      have hconstant : C.Constant.ofNumeral negative n.text =
          (Number.float (.finite negative m)).constant := by
        rw [C.Constant.ofNumeral, if_pos hmark, n.ofNumeral_text, hround, constant]
      rw [htext, ← hconstant]
      exact C.Derives.signed _ _

theorem Scan.isWordPart_of_isDigit {c : Char} (h : c.isDigit = true) : isWordPart c = true := by
  simp [isWordPart, Char.isAlphanum, h]

/-- The name of a pin is a word. -/
theorem Pin.exists_word (pin : Pin) : ∃ c tail, pin.name.toList = c :: tail ∧
    Scan.isWordStart c = true ∧ ∀ d ∈ tail, Scan.isWordPart d = true := by
  have hdigits : ∀ d ∈ Nat.toDigits 10 pin.index, Scan.isWordPart d = true := fun d hd =>
    Scan.isWordPart_of_isDigit (Nat.isDigit_of_mem_toDigits (by decide) (by decide) hd)
  have hstem : ∀ d ∈ ['i', 'n'], Scan.isWordPart d = true := List.all_eq_true.1 rfl
  have htail : ∀ d ∈ ['i', 'n'] ++ Nat.toDigits 10 pin.index, Scan.isWordPart d = true := by
    intro d hd
    rcases List.mem_append.1 hd with hd | hd
    · exact hstem d hd
    · exact hdigits d hd
  rw [toList_name, toList_stem]
  cases pin.kind with
  | digital => exact ⟨'d', _, rfl, by decide, htail⟩
  | analog => exact ⟨'a', _, rfl, by decide, htail⟩

theorem IsPinName.lexes {text : String} (h : IsPinName text) :
    C.LexesTo text.toList [.name text] := by
  obtain ⟨pin, -, rfl⟩ := isPinName_iff.1 h
  obtain ⟨c, tail, hname, hc, htail⟩ := pin.exists_word
  have hlexes := C.LexesTo.name hc htail
  rwa [← hname, String.ofList_toList] at hlexes

theorem Expr.IsSupportedOperand.reads {e : Expr} (h : e.IsSupportedOperand)
    (hfinite : e.HasFiniteNumbers) : ∃ text tokens,
      e.targetText = .ok text ∧ C.LexesTo text.toList tokens ∧
        C.Derives C.unary tokens e.target := by
  cases h with
  | @column name hpin => exact ⟨name.text, _, rfl, hpin.lexes, .var _⟩
  | literal number =>
    obtain ⟨tokens, hlexes, hderives⟩ := (hfinite number.value (by simp [numbers])).reads
    exact ⟨number.value.text, tokens, rfl, hlexes, hderives⟩

theorem Comparison.exists_symbol? (op : Comparison) : ∃ c tail, op.symbol.toList = c :: tail ∧
    ∀ rest, C.symbol? c (tail ++ ' ' :: rest) = some (.operator op.operator, tail.length) := by
  cases op <;> exact ⟨_, _, rfl, fun rest => rfl⟩

theorem Connective.exists_symbol? (op : Connective) : ∃ c tail, op.symbol.toList = c :: tail ∧
    ∀ rest, C.symbol? c (tail ++ ' ' :: rest) = some (.operator op.operator, tail.length) := by
  cases op <;> exact ⟨_, _, rfl, fun rest => rfl⟩

/-- **The text of a supported condition forms its tree.** The text of a connective stands in
parentheses, that of a comparison does not. -/
theorem Expr.IsSupported.reads {e : Expr} (h : e.IsSupported)
    (hfinite : e.HasFiniteNumbers) : ∃ text tokens,
      e.targetText = .ok text ∧ C.LexesTo text.toList tokens ∧ C.Derives 3 tokens e.target ∧
        (e.isLogical = true → C.Derives C.unary tokens e.target ∧ ∃ cs, text.toList = '(' :: cs) := by
  induction h with
  | @comparison op left right span hleft hright =>
    obtain ⟨leftText, lefts, hltext, hllexes, hlderives⟩ :=
      hleft.reads fun number hmem => hfinite number (by simp [numbers, hmem])
    obtain ⟨rightText, rights, hrtext, hrlexes, hrderives⟩ :=
      hright.reads fun number hmem => hfinite number (by simp [numbers, hmem])
    obtain ⟨c, tail, hsymbol, hop⟩ := op.exists_symbol?
    refine ⟨leftText ++ " " ++ op.symbol ++ " " ++ rightText, lefts ++ .operator op.operator :: rights,
      ?_, ?_, ?_, by simp [isLogical]⟩
    · simp [targetText, hltext, hrtext, bind, Except.bind, pure, Except.pure]
    · have hlexes := hllexes.between hop hrlexes
      rw [← hsymbol] at hlexes
      simpa using hlexes
    · have hprecedence : 3 ≤ op.operator.precedence ∧ op.operator.precedence < C.unary := by
        cases op <;> decide
      refine (C.Derives.binary ?_ ?_).mono hprecedence.1
      · exact hlderives.mono (by omega)
      · exact hrderives.mono (by omega)
  | @logical op left right span _ _ ihleft ihright =>
    obtain ⟨leftText, lefts, hltext, hllexes, hlderives, -⟩ :=
      ihleft fun number hmem => hfinite number (by simp [numbers, hmem])
    obtain ⟨rightText, rights, hrtext, hrlexes, hrderives, -⟩ :=
      ihright fun number hmem => hfinite number (by simp [numbers, hmem])
    obtain ⟨c, tail, hsymbol, hop⟩ := op.exists_symbol?
    have hderives : C.Derives C.unary
        (.opening :: ((lefts ++ .operator op.operator :: rights) ++ [.closing]))
        (Expr.logical op left right span).target := by
      have hprecedence : 1 ≤ op.operator.precedence ∧ op.operator.precedence < 3 := by
        cases op <;> decide
      refine .paren ((C.Derives.binary ?_ ?_).mono hprecedence.1)
      · exact hlderives.mono (by omega)
      · exact hrderives.mono (by omega)
    refine ⟨"(" ++ leftText ++ " " ++ op.symbol ++ " " ++ rightText ++ ")", _, ?_, ?_,
      hderives.mono (by decide), fun _ => ⟨hderives, _, by simp; rfl⟩⟩
    · simp [targetText, hltext, hrtext, bind, Except.bind, pure, Except.pure]
    · have hlexes := (hllexes.between hop hrlexes).paren
      rw [← hsymbol] at hlexes
      simpa using hlexes
  | @negation inner span hbinary _ ih =>
    obtain ⟨text, tokens, htext, hlexes, hderives, hlogical⟩ := ih hfinite
    by_cases hinner : inner.isLogical = true
    · obtain ⟨hunary, cs, hopening⟩ := hlogical hinner
      have hnot : C.LexesTo ('!' :: text.toList) (.bang :: tokens) :=
        hlexes.behind fun rest => by rw [hopening]; rfl
      refine ⟨"!" ++ text, _, ?_, by simpa using hnot, hunary.not.mono (by decide),
        by simp [isLogical]⟩
      simp [targetText, hbinary, hinner, htext, bind, Except.bind, pure, Except.pure]
    · have hparen : C.Derives C.unary (.opening :: (tokens ++ [.closing])) inner.target :=
        .paren (hderives.mono (by decide))
      have hnot : C.LexesTo ('!' :: '(' :: (text.toList ++ [')']))
          (.bang :: .opening :: (tokens ++ [.closing])) :=
        hlexes.paren.behind fun rest => rfl
      refine ⟨"!(" ++ text ++ ")", _, ?_, by simpa using hnot, hparen.not.mono (by decide),
        by simp [isLogical]⟩
      simp [targetText, hbinary, hinner, htext, bind, Except.bind, pure, Except.pure]

/-- The only tree of the tokens of a supported condition is that of the condition. -/
theorem Expr.IsSupported.derives_iff {e : Expr} (h : e.IsSupported)
    (hfinite : e.HasFiniteNumbers) : ∃ text tokens,
      e.targetText = .ok text ∧ C.lex text.toList = some tokens ∧
        ∀ tree, C.Derives 1 tokens tree ↔ tree = e.target := by
  obtain ⟨text, tokens, htext, hlexes, hderives, -⟩ := h.reads hfinite
  have htree : C.Derives 1 tokens e.target := hderives.mono (by decide)
  refine ⟨text, tokens, htext, hlexes.lex_eq, fun tree => ⟨fun h => htree.unique h, ?_⟩⟩
  rintro rfl
  exact htree

/-- **Translation preserves meaning.** The accepted conditions are the supported ones. If its numbers
are finite, the text of such a condition is cut into tokens without a rest, and they form the tree of
the condition and no other. The tree is true exactly where the condition holds, whatever the values
of pins and numbers are. Conditions with the same text are equal up to places and quoting. -/
theorem translation_preserves_meaning (e : Expr) :
    (∀ usage, (∃ usage', e.checkCondition usage = .ok usage') ↔ e.IsSupported) ∧
    (e.IsSupported → e.HasFiniteNumbers → ∃ text tokens,
      e.targetText = .ok text ∧ C.lex text.toList = some tokens ∧
      (∀ tree, C.Derives 1 tokens tree ↔ tree = e.target) ∧
      (∀ (V : Type) (S : C.Semantics V) (assignment : String → V),
        S.isTrue (e.target.value S assignment) = e.holds S assignment) ∧
      ∀ e' : Expr, e'.IsSupported → e'.HasFiniteNumbers → e'.targetText = .ok text →
        e'.bare = e.bare) := by
  refine ⟨fun usage => by simp [Expr.checkCondition_eq_ok_iff], fun h hfinite => ?_⟩
  obtain ⟨text, tokens, htext, hlex, hderives⟩ := h.derives_iff hfinite
  refine ⟨text, tokens, htext, hlex, hderives,
    fun V S assignment => h.isTrue_target S assignment, fun e' h' hfinite' htext' => ?_⟩
  obtain ⟨text', tokens', htext'', hlex', hderives'⟩ := h'.derives_iff hfinite'
  obtain rfl : text' = text := Except.ok.inj (htext''.symm.trans htext')
  obtain rfl : tokens' = tokens := Option.some.inj (hlex'.symm.trans hlex)
  exact Expr.bare_eq_of_target_eq ((hderives _).1 ((hderives' _).2 rfl))

/-- The condition `NOT (din1 <= -0.0 AND ain2 <> 1)`. -/
def negatedConjunction : Expr :=
  .negation (.logical .and
    (.comparison .lessEqual (.column ⟨"din1", false, .empty 0⟩)
      (.literal ⟨.float (.zero true), .empty 0⟩) (.empty 0))
    (.comparison .notEqual (.column ⟨"ain2", false, .empty 0⟩) (.literal ⟨.int 1, .empty 0⟩)
      (.empty 0)) (.empty 0)) (.empty 0)

theorem translation_negatedConjunction :
    ∃ text tokens, negatedConjunction.targetText = .ok text ∧ C.lex text.toList = some tokens ∧
      ∀ tree, C.Derives 1 tokens tree ↔ tree = negatedConjunction.target := by
  have hfinite : negatedConjunction.HasFiniteNumbers := by
    unfold Expr.HasFiniteNumbers
    decide +kernel
  have hsupported : negatedConjunction.IsSupported :=
    .negation rfl (.logical (.comparison (.column (by decide)) (.literal _))
      (.comparison (.column (by decide)) (.literal _)))
  obtain ⟨text, tokens, htext, hlex, hderives, -⟩ :=
    (translation_preserves_meaning negatedConjunction).2 hsupported hfinite
  exact ⟨text, tokens, htext, hlex, hderives⟩

/-- The condition `din1 = -inf`, which no source spells. -/
def equalsMinusInfinity : Expr :=
  .comparison .equal (.column ⟨"din1", false, .empty 0⟩)
    (.literal ⟨.float (.infinite true), .empty 0⟩) (.empty 0)

/-- An infinite number is accepted, but its text is no numeral: the minus stands before a name, and
the tokens form no tree. -/
theorem translation_equalsMinusInfinity :
    (∃ usage, equalsMinusInfinity.checkCondition .empty = .ok usage) ∧
      equalsMinusInfinity.targetText = .ok "din1 == -inf" ∧
      ∀ tokens tree, C.lex "din1 == -inf".toList = some tokens → ¬ C.Derives 1 tokens tree := by
  refine ⟨⟨_, rfl⟩, rfl, fun tokens tree hlex hderives => ?_⟩
  have hname : C.LexesTo "din1".toList [.name "din1"] := .name rfl (List.all_eq_true.1 rfl)
  have hinf : C.LexesTo "inf".toList [.name "inf"] := .name rfl (List.all_eq_true.1 rfl)
  have hminus : C.LexesTo "-inf".toList [.minus, .name "inf"] := hinf.behind fun rest => rfl
  have hequal : ∀ rest, C.symbol? '=' (['='] ++ ' ' :: rest) = some (.operator .equal, 1) :=
    fun rest => rfl
  have htext : C.LexesTo "din1 == -inf".toList
      [.name "din1", .operator .equal, .minus, .name "inf"] :=
    hname.between hequal hminus
  obtain rfl := Option.some.inj (htext.lex_eq.symm.trans hlex)
  have hread := hderives.read
  cases hread

end PinQuery
