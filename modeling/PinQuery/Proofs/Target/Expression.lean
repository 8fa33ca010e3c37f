import PinQuery.Query.Basic
import PinQuery.Token.Scan

/-!
# Expressions of the target language

The part of the C expression grammar that conditions are written in.

* `C.lex` cuts a text into tokens, the longest token first.
* `C.Derives k tokens tree`: the tokens form the tree, and every operator outside parentheses binds
  at least as tightly as `k`. Binary operators associate to the left; names, numerals with an
  optional sign, negations and parentheses bind tightest.
* `C.read` reads tokens from left to right with a stack of waiting operators. It finds every tree
  there is (`C.Derives.read`), so that tokens form at most one tree (`C.Derives.unique`).
* `C.Tree.value` is the value of a tree. What the values of variables and numerals are and how they
  compare is left open (`C.Semantics`); truth values are values as in C.
-/

namespace PinQuery.C

/-! ## Tokens -/

/-- The binary operators. -/
inductive Operator
  | or
  | and
  | equal
  | notEqual
  | less
  | lessEqual
  | greater
  | greaterEqual
deriving DecidableEq, Repr

/-- How tightly an operator binds. -/
def Operator.precedence : Operator → Nat
  | .or => 1
  | .and => 2
  | .equal => 3
  | .notEqual => 3
  | .less => 4
  | .lessEqual => 4
  | .greater => 4
  | .greaterEqual => 4

/-- The tokens of an expression. -/
inductive Token
  | name (text : String)
  | numeral (text : List Char)
  | operator (op : Operator)
  | bang
  | plus
  | minus
  | opening
  | closing
deriving DecidableEq, Repr

/-- The sign at the head of a text, and the number of characters after its first. -/
def symbol? : Char → List Char → Option (Token × Nat)
  | '|', '|' :: _ => some (.operator .or, 1)
  | '&', '&' :: _ => some (.operator .and, 1)
  | '=', '=' :: _ => some (.operator .equal, 1)
  | '!', '=' :: _ => some (.operator .notEqual, 1)
  | '!', _ => some (.bang, 0)
  | '<', '=' :: _ => some (.operator .lessEqual, 1)
  | '<', _ => some (.operator .less, 0)
  | '>', '=' :: _ => some (.operator .greaterEqual, 1)
  | '>', _ => some (.operator .greater, 0)
  | '+', _ => some (.plus, 0)
  | '-', _ => some (.minus, 0)
  | '(', _ => some (.opening, 0)
  | ')', _ => some (.closing, 0)
  | _, _ => none

/-- The longest token at the head of the text `c :: cs`, if one begins there, and how many characters
of `cs` belong to it. -/
def token? (c : Char) (cs : List Char) : Option (Token × Nat) :=
  if Scan.isWordStart c then
    let tail := cs.takeWhile Scan.isWordPart
    some (.name (String.ofList (c :: tail)), tail.length)
  else if c.isDigit then
    let tail := Scan.numberTail cs
    some (.numeral (c :: tail), tail.length)
  else
    symbol? c cs

/-- The tokens of a text, if it has no stretch where no token begins. -/
def lex : List Char → Option (List Token)
  | [] => some []
  | c :: cs =>
    if Scan.isSeparator c then lex cs
    else
      match token? c cs with
      | none => none
      | some (token, more) => (lex (cs.drop more)).map (token :: ·)
termination_by cs => cs.length
decreasing_by all_goals simp only [List.length_drop, List.length_cons]; omega

/-! ## Trees -/

/-- The value of a numeral with its sign. Without point and exponent it is an integer. -/
inductive Constant
  | int (value : Int)
  | float (value : Binary64)
deriving DecidableEq

/-- The constant that a numeral behind an optional minus stands for. -/
def Constant.ofNumeral (negative : Bool) (numeral : List Char) : Constant :=
  if numeral.any Number.isFloatMark then .float ((Decimal.ofNumeral numeral).round negative)
  else .int (if negative then -Decimal.digitsValue numeral else Decimal.digitsValue numeral)

/-- The trees of expressions. -/
inductive Tree
  | var (name : String)
  | constant (value : Constant)
  | not (inner : Tree)
  | binary (op : Operator) (left right : Tree)
deriving DecidableEq

/-- The names in a tree. -/
def Tree.names : Tree → List String
  | .var name => [name]
  | .constant _ => []
  | .not inner => inner.names
  | .binary _ left right => left.names ++ right.names

/-- The tightest level of binding: signs, negations and parentheses. -/
def unary : Nat := 5

/-- Tokens form a tree whose operators outside parentheses bind at least as tightly as a level. -/
inductive Derives : Nat → List Token → Tree → Prop
  | var (name : String) : Derives unary [.name name] (.var name)
  | constant (numeral : List Char) :
      Derives unary [.numeral numeral] (.constant (.ofNumeral false numeral))
  | plus (numeral : List Char) :
      Derives unary [.plus, .numeral numeral] (.constant (.ofNumeral false numeral))
  | minus (numeral : List Char) :
      Derives unary [.minus, .numeral numeral] (.constant (.ofNumeral true numeral))
  | not {tokens : List Token} {tree : Tree} (h : Derives unary tokens tree) :
      Derives unary (.bang :: tokens) (.not tree)
  | paren {tokens : List Token} {tree : Tree} (h : Derives 1 tokens tree) :
      Derives unary (.opening :: (tokens ++ [.closing])) tree
  | binary {op : Operator} {lefts rights : List Token} {left right : Tree}
      (hleft : Derives op.precedence lefts left)
      (hright : Derives (op.precedence + 1) rights right) :
      Derives op.precedence (lefts ++ .operator op :: rights) (.binary op left right)
  | tighter {k : Nat} {tokens : List Token} {tree : Tree} (h : Derives (k + 1) tokens tree) :
      Derives k tokens tree

namespace Derives

variable {tokens : List Token} {tree : Tree}

theorem mono {j k : Nat} (h : Derives k tokens tree) (hjk : j ≤ k) : Derives j tokens tree := by
  induction k with
  | zero =>
    obtain rfl : j = 0 := by omega
    exact h
  | succ k ih =>
    by_cases hj : j = k + 1
    · rw [hj]
      exact h
    · exact ih h.tighter (by omega)

/-- The names among the tokens are those of the tree. -/
theorem name_mem_iff {k : Nat} (h : Derives k tokens tree) (name : String) :
    .name name ∈ tokens ↔ name ∈ tree.names := by
  induction h with
  | var | constant | plus | minus => simp [Tree.names]
  | not _ ih => simpa [Tree.names] using ih
  | paren _ ih => simpa using ih
  | binary _ _ ihleft ihright => simp [Tree.names, ihleft, ihright]
  | tighter _ ih => exact ih

end Derives

/-! ## Reading tokens -/

/-- What waits for the operand that is read: a parenthesis, a negation, or a binary operator with its
left operand. -/
inductive Frame
  | paren
  | not
  | binary (op : Operator) (left : Tree)
deriving DecidableEq

/-- An operand takes up what waits for it and binds at least as tightly as a level. -/
def reduce (k : Nat) : List Frame → Tree → List Frame × Tree
  | .not :: frames, tree => reduce k frames (.not tree)
  | .binary op left :: frames, tree =>
    if k ≤ op.precedence then reduce k frames (.binary op left tree)
    else (.binary op left :: frames, tree)
  | frames, tree => (frames, tree)

/-- What is remembered of the tokens read so far: the waiting frames, the innermost first, and
whether an operand, the numeral behind a sign or an operator comes next. -/
inductive State
  | operand (frames : List Frame)
  | numeral (negative : Bool) (frames : List Frame)
  | operator (frames : List Frame) (tree : Tree)
deriving DecidableEq

/-- The state after one more token, if it can stand there. -/
def State.next? : State → Token → Option State
  | .operand frames, .name name => some (.operator frames (.var name))
  | .operand frames, .numeral text => some (.operator frames (.constant (.ofNumeral false text)))
  | .operand frames, .plus => some (.numeral false frames)
  | .operand frames, .minus => some (.numeral true frames)
  | .operand frames, .bang => some (.operand (.not :: frames))
  | .operand frames, .opening => some (.operand (.paren :: frames))
  | .numeral negative frames, .numeral text =>
    some (.operator frames (.constant (.ofNumeral negative text)))
  | .operator frames tree, .operator op =>
    let (frames, tree) := reduce op.precedence frames tree
    some (.operand (.binary op tree :: frames))
  | .operator frames tree, .closing =>
    match reduce 1 frames tree with
    | (.paren :: frames, tree) => some (.operator frames tree)
    | _ => none
  | _, _ => none

/-- The tree, if the expression may end there. -/
def State.finish? : State → Option Tree
  | .operator frames tree =>
    match reduce 1 frames tree with
    | ([], tree) => some tree
    | _ => none
  | _ => none

/-- The tree that tokens form. -/
def read (tokens : List Token) : Option Tree :=
  (tokens.foldlM State.next? (.operand [])).bind State.finish?

/-- Nothing that waits is taken up by an operator of a level. -/
def Blocked (k : Nat) : List Frame → Prop
  | [] => True
  | .paren :: _ => True
  | .not :: _ => False
  | .binary op _ :: _ => op.precedence < k

theorem Blocked.reduce {k : Nat} {frames : List Frame} (h : Blocked k frames) (tree : Tree) :
    reduce k frames tree = (frames, tree) := by
  unfold C.reduce
  split
  next => exact absurd h id
  next op left frames _ => rw [if_neg (by simpa [Blocked] using h)]
  next => rfl

theorem Blocked.succ {k : Nat} {frames : List Frame} (h : Blocked k frames) :
    Blocked (k + 1) frames := by
  cases frames with
  | nil => trivial
  | cons frame frames =>
    cases frame with
    | paren => trivial
    | not => exact h
    | binary op left => exact Nat.lt_succ_of_lt h

/-- Reading tokens that form a tree gives the tree, as far as the operators that come next can tell:
what is still waiting behind it is taken up by any of them. -/
theorem Derives.run {k : Nat} {tokens : List Token} {tree : Tree} (h : Derives k tokens tree) :
    ∀ frames, (k < unary → Blocked k frames) → ∃ frames' tree',
      tokens.foldlM State.next? (.operand frames) = some (.operator frames' tree') ∧
        ∀ j ≤ k, reduce j frames' tree' = reduce j frames tree := by
  induction h with
  | var name => exact fun frames _ => ⟨frames, _, rfl, fun _ _ => rfl⟩
  | constant numeral => exact fun frames _ => ⟨frames, _, rfl, fun _ _ => rfl⟩
  | plus numeral => exact fun frames _ => ⟨frames, _, rfl, fun _ _ => rfl⟩
  | minus numeral => exact fun frames _ => ⟨frames, _, rfl, fun _ _ => rfl⟩
  | not _ ih =>
    intro frames _
    obtain ⟨frames', tree', hrun, hreduce⟩ := ih (.not :: frames) (by omega)
    exact ⟨frames', tree', hrun, hreduce⟩
  | @paren tokens tree _ ih =>
    intro frames _
    obtain ⟨frames', tree', hrun, hreduce⟩ := ih (.paren :: frames) (fun _ => trivial)
    refine ⟨frames, tree, ?_, fun _ _ => rfl⟩
    have hclosing : reduce 1 frames' tree' = (.paren :: frames, tree) := hreduce 1 (by omega)
    have hopening : State.next? (.operand frames) .opening = some (.operand (.paren :: frames)) := rfl
    rw [List.foldlM_cons, hopening, Option.bind_eq_bind, Option.bind_some, List.foldlM_append, hrun]
    simp [State.next?, hclosing]
  | @binary op lefts rights left right _ _ ihleft ihright =>
    intro frames hframes
    have hblocked : Blocked op.precedence frames := hframes (by cases op <;> decide)
    obtain ⟨frames₁, tree₁, hrun₁, hreduce₁⟩ := ihleft frames hframes
    obtain ⟨frames₂, tree₂, hrun₂, hreduce₂⟩ := ihright (.binary op left :: frames)
      fun _ => Nat.lt_succ_self _
    refine ⟨frames₂, tree₂, ?_, fun j hj => ?_⟩
    · have hoperator : reduce op.precedence frames₁ tree₁ = (frames, left) := by
        rw [hreduce₁ _ (by omega), hblocked.reduce]
      rw [List.foldlM_append, hrun₁, Option.bind_eq_bind, Option.bind_some, List.foldlM_cons]
      simp only [State.next?, hoperator]
      exact hrun₂
    · rw [hreduce₂ j (by omega), reduce, if_pos hj]
  | tighter _ ih =>
    intro frames hframes
    obtain ⟨frames', tree', hrun, hreduce⟩ := ih frames fun hk => (hframes (by omega)).succ
    exact ⟨frames', tree', hrun, fun j hj => hreduce j (by omega)⟩

/-- The reader finds the tree that tokens form. -/
theorem Derives.read {tokens : List Token} {tree : Tree} (h : Derives 1 tokens tree) :
    C.read tokens = some tree := by
  obtain ⟨frames, tree', hrun, hreduce⟩ := h.run [] fun _ => trivial
  have hfinish : reduce 1 frames tree' = ([], tree) := hreduce 1 (by omega)
  simp [C.read, hrun, State.finish?, hfinish]

/-- **Tokens form at most one tree.** -/
theorem Derives.unique {tokens : List Token} {tree tree' : Tree} (h : Derives 1 tokens tree)
    (h' : Derives 1 tokens tree') : tree' = tree := by
  have hread := h'.read
  rw [h.read] at hread
  exact (Option.some.inj hread).symm

/-! ## Values -/

/-- What values are: those of numerals, how two of them compare, and which stand for the truth
values. -/
structure Semantics (V : Type) where
  constant : Constant → V
  compare : Comparison → V → V → Bool
  ofBool : Bool → V
  isTrue : V → Bool
  isTrue_ofBool : ∀ b, isTrue (ofBool b) = b

section

variable {V : Type} (S : Semantics V)

/-- Whether an operator holds of two values. -/
def Operator.holds (left right : V) : Operator → Bool
  | .or => S.isTrue left || S.isTrue right
  | .and => S.isTrue left && S.isTrue right
  | .equal => S.compare .equal left right
  | .notEqual => S.compare .notEqual left right
  | .less => S.compare .less left right
  | .lessEqual => S.compare .lessEqual left right
  | .greater => S.compare .greater left right
  | .greaterEqual => S.compare .greaterEqual left right

/-- The value of a tree when its variables have given values. -/
def Tree.value (assignment : String → V) : Tree → V
  | .var name => assignment name
  | .constant value => S.constant value
  | .not inner => S.ofBool (!S.isTrue (inner.value assignment))
  | .binary op left right =>
    S.ofBool (op.holds S (left.value assignment) (right.value assignment))

end

end PinQuery.C
