import PinQuery.Token

/-!
# Scanning a text into tokens

Separators stand between tokens. At any other character the longest lexeme that begins there is
taken.

* `isSeparator` are the characters between tokens.
* `lexeme c cs` says what stands at the head of the text `c :: cs`: the kind of its longest token,
  or `none` where no token begins, and how many characters of `cs` belong to it.
* `Scan.pieces` cuts a source into its tokens and its faulty stretches, in order.
* `tokensOf` and `faultsOf` sort the pieces; `scan` closes the tokens by the end of the query.

A number takes a fraction or an exponent only when it is complete, so `1.` is a number and a stray
point. A backtick that is not closed on its line is faulty up to the end of the line.
-/

namespace PinQuery

namespace Scan

/-- The characters that may stand between tokens: space, tab, line feed, carriage return and form
feed. -/
def isSeparator (c : Char) : Bool := c == ' ' || c == '\t' || c == '\r' || c == '\n' || c == '\x0c'

/-- The characters a word begins with. -/
def isWordStart (c : Char) : Bool := c.isAlpha || c == '_'

/-- The characters a word goes on with. -/
def isWordPart (c : Char) : Bool := c.isAlphanum || c == '_'

/-- The characters that may stand between the two backticks of a quoted name. -/
def isQuotable (c : Char) : Bool := c != '\x60' && c != '\n'

/-! ## Numbers -/

/-- The fraction at the head of a text: a point and at least one digit, or nothing. -/
def fraction : List Char → List Char
  | '.' :: cs =>
    match cs.takeWhile Char.isDigit with
    | [] => []
    | digits => '.' :: digits
  | _ => []

/-- The digits of an exponent with their optional sign, or nothing. -/
def exponentDigits : List Char → List Char
  | [] => []
  | c :: cs =>
    if c == '+' || c == '-' then
      match cs.takeWhile Char.isDigit with
      | [] => []
      | digits => c :: digits
    else
      (c :: cs).takeWhile Char.isDigit

/-- The exponent at the head of a text: `e` or `E`, an optional sign and at least one digit, or
nothing. -/
def exponent : List Char → List Char
  | [] => []
  | c :: cs =>
    if c == 'e' || c == 'E' then
      match exponentDigits cs with
      | [] => []
      | digits => c :: digits
    else
      []

/-- What follows the first digit of the longest number at the head of a text. -/
def numberTail (cs : List Char) : List Char :=
  let digits := cs.takeWhile Char.isDigit
  let afterDigits := cs.dropWhile Char.isDigit
  let fractionPart := fraction afterDigits
  digits ++ fractionPart ++ exponent (afterDigits.drop fractionPart.length)

/-! ## Lexemes -/

/-- The operator or mark at the head of a text, and the number of characters after its first. -/
def symbol? : Char → List Char → Option (Kind × Nat)
  | '=', '=' :: _ => some (.doubleEqual, 1)
  | '=', _ => some (.equal, 0)
  | '!', '=' :: _ => some (.bangEqual, 1)
  | '<', '>' :: _ => some (.lessGreater, 1)
  | '<', '=' :: _ => some (.lessEqual, 1)
  | '<', _ => some (.less, 0)
  | '>', '=' :: _ => some (.greaterEqual, 1)
  | '>', _ => some (.greater, 0)
  | '+', _ => some (.plus, 0)
  | '-', _ => some (.minus, 0)
  | '(', _ => some (.leftParen, 0)
  | ')', _ => some (.rightParen, 0)
  | ',', _ => some (.comma, 0)
  | ';', _ => some (.semicolon, 0)
  | _, _ => none

/-- The kind of a word: a keyword if it spells one, else a name. -/
def wordKind (word : List Char) : Kind :=
  match Keyword.ofWord? (String.ofList word) with
  | some keyword => .keyword keyword
  | none => .name

/-- What stands at the head of the text `c :: cs`, where `c` is no separator: the kind of the
longest token, or `none` for a faulty stretch, and how many characters of `cs` belong to it. -/
def lexeme (c : Char) (cs : List Char) : Option Kind × Nat :=
  if isWordStart c then
    let tail := cs.takeWhile isWordPart
    (some (wordKind (c :: tail)), tail.length)
  else if c.isDigit then
    (some .number, (numberTail cs).length)
  else if c == '\x60' then
    let inside := cs.takeWhile isQuotable
    match cs.drop inside.length with
    | '\x60' :: _ => (some .quotedName, inside.length + 1)
    | _ => (none, inside.length)
  else
    match symbol? c cs with
    | some (kind, more) => (some kind, more)
    | none => (none, 0)

/-! ## Pieces -/

/-- A stretch of a text between separators: a token's, or one where no token begins. -/
structure Piece where
  kind : Option Kind
  text : String
  span : Span
deriving DecidableEq, Repr

/-- The pieces of a text whose first character stands at `offset`. -/
def piecesFrom (offset : Nat) : List Char → List Piece
  | [] => []
  | c :: cs =>
    if isSeparator c then
      piecesFrom (offset + c.utf8Size) cs
    else
      let (kind, more) := lexeme c cs
      let taken := c :: cs.take more
      let stop := offset + Text.byteLength taken
      ⟨kind, String.ofList taken, ⟨offset, stop⟩⟩ :: piecesFrom stop (cs.drop more)
termination_by cs => cs.length
decreasing_by all_goals simp only [List.length_drop, List.length_cons]; omega

/-- The pieces of a source. -/
def pieces (source : String) : List Piece := piecesFrom 0 source.toList

/-- The token of a piece that is not faulty. -/
def Piece.token? (piece : Piece) : Option Token :=
  piece.kind.map fun kind => ⟨kind, piece.text, piece.span⟩

/-- The span of a faulty piece. -/
def Piece.fault? (piece : Piece) : Option Span :=
  match piece.kind with
  | none => some piece.span
  | some _ => none

end Scan

/-- The tokens of a source, without the end of the query. -/
def tokensOf (source : String) : List Token := (Scan.pieces source).filterMap Scan.Piece.token?

/-- The spans of a source where no token begins. -/
def faultsOf (source : String) : List Span := (Scan.pieces source).filterMap Scan.Piece.fault?

/-- The offset of the end of a source. -/
def endOf (source : String) : Nat := Text.byteLength source.toList

/-- The tokens of a source, closed by the end of the query. -/
def scan (source : String) : List Token := tokensOf source ++ [.endAt (endOf source)]

end PinQuery
