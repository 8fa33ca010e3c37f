import PinQuery.Json
import PinQuery.Proofs.Token.Numeral

/-!
# Reading documents

What is printed for a document can be read again.

* `Json.lex` takes a text apart into tokens, blanks left out. `Json.unquote` reads a string up to
  its closing quotes.
* `Json.layOut` writes tokens with one item a line, two spaces deeper for each open bracket, and
  `Json.Prints` says of a text that it is some tokens in this layout.
* `Json.Reader.step` is one step of a reader with a stack of the arrays and objects that are open,
  and `Json.read?` reads a text.
* `Json.IsLegible` are the documents whose numbers are words of their own.
* `Json.IsLegible.read?_indented` and `Json.IsLegible.layOut_indented`: the indented text of a
  legible document is read as this document, and it is its tokens laid out.
-/

namespace PinQuery.Json

open Text

/-! ## Tokens -/

/-- The brackets of arrays and of objects. -/
inductive Bracket
  | square
  | curly
deriving DecidableEq

/-- The parts that the text of a document consists of. A number is a word, and so are `true` and
`false`. -/
inductive Token
  | opening (bracket : Bracket)
  | closing (bracket : Bracket)
  | comma
  | colon
  | string (text : String)
  | word (text : String)
deriving DecidableEq

/-- The text of a token. -/
def Token.text : Token → List Char
  | .opening .square => ['[']
  | .opening .curly => ['\x7b']
  | .closing .square => [']']
  | .closing .curly => ['\x7d']
  | .comma => [',']
  | .colon => [':']
  | .string text => (quote text).toList
  | .word text => text.toList

/-- Brackets around the tokens of some items, with commas between the items. -/
def enclosed (bracket : Bracket) (items : List (List Token)) : List Token :=
  .opening bracket :: ([.comma].intercalate items ++ [.closing bracket])

mutual

/-- The tokens of a document. -/
def tokens : Json → List Token
  | .string text => [.string text]
  | .number text => [.word text]
  | .bool value => [.word (if value then "true" else "false")]
  | .array items => enclosed .square (itemTokens items)
  | .object fields => enclosed .curly (fieldTokens fields)

/-- The tokens of each item of an array. -/
def itemTokens : List Json → List (List Token)
  | [] => []
  | item :: items => item.tokens :: itemTokens items

/-- The tokens of each field of an object. -/
def fieldTokens : List (String × Json) → List (List Token)
  | [] => []
  | (key, value) :: fields => (.string key :: .colon :: value.tokens) :: fieldTokens fields

end

/-! ### Strings -/

/-- The value of a hexadecimal digit. -/
def digitValue? (c : Char) : Option Nat :=
  if c.isDigit then some (c.toNat - '0'.toNat)
  else if 'a' ≤ c ∧ c ≤ 'f' then some (c.toNat - 'a'.toNat + 10)
  else if 'A' ≤ c ∧ c ≤ 'F' then some (c.toNat - 'A'.toNat + 10)
  else none

/-- The character with a code, if there is one. -/
def codePoint? (digits : List Char) : Option Char := do
  let values ← digits.mapM digitValue?
  let code := values.foldl (16 * · + ·) 0
  if code < 0xd800 ∨ 0xe000 ≤ code then some (.ofNat code) else none

/-- The character that a character behind a backslash stands for. -/
def escaped? : Char → Option Char
  | '"' => some '"'
  | '\\' => some '\\'
  | '/' => some '/'
  | 'b' => some '\x08'
  | 'f' => some '\x0c'
  | 'n' => some '\n'
  | 'r' => some '\r'
  | 't' => some '\t'
  | _ => none

/-- The first character of a string and what follows it. -/
def character? : List Char → Option (Char × List Char)
  | [] => none
  | '\\' :: 'u' :: a :: b :: c :: d :: cs => (codePoint? [a, b, c, d]).map (·, cs)
  | '\\' :: c :: cs => (escaped? c).map (·, cs)
  | c :: cs => if c == '"' || c == '\\' || decide (c.toNat < 0x20) then none else some (c, cs)

theorem length_character? {cs rest : List Char} {c : Char} (h : character? cs = some (c, rest)) :
    rest.length < cs.length := by
  unfold character? at h
  split at h
  next => cases h
  next =>
    obtain ⟨_, -, h⟩ := Option.map_eq_some_iff.1 h
    cases h
    simp only [List.length_cons]
    omega
  next =>
    obtain ⟨_, -, h⟩ := Option.map_eq_some_iff.1 h
    cases h
    simp only [List.length_cons]
    omega
  next =>
    split at h
    next => cases h
    next =>
      cases h
      exact Nat.lt_succ_self _

/-- The text of a string up to its closing quotes, and what follows them. -/
def unquote (cs : List Char) : Option (List Char × List Char) :=
  if cs.head? = some '"' then some ([], cs.tail)
  else
    match _ : character? cs with
    | some (c, rest) => (unquote rest).map fun (text, behind) => (c :: text, behind)
    | none => none
termination_by cs.length
decreasing_by exact length_character? ‹_›

theorem length_unquote {cs text rest : List Char} (h : unquote cs = some (text, rest)) :
    rest.length < cs.length := by
  fun_induction unquote cs generalizing text with
  | case1 cs hquotes =>
    obtain ⟨tail, rfl⟩ := List.head?_eq_some_iff.1 hquotes
    cases h
    exact Nat.lt_succ_self _
  | case2 cs hquotes c behind hcharacter ih =>
    obtain ⟨⟨text', rest'⟩, hrest, h⟩ := Option.map_eq_some_iff.1 h
    cases h
    exact (ih hrest).trans (length_character? hcharacter)
  | case3 => cases h

/-- An escaped character is read as this character. -/
theorem character?_escapeChar (c : Char) (cs : List Char) :
    character? (escapeChar c ++ cs) = some (c, cs) := by
  have hcontrol : ∀ n < 32, codePoint? ['0', '0', hexDigit (n / 16), hexDigit (n % 16)] =
      some (Char.ofNat n) := by
    decide
  unfold escapeChar
  split
  case h_8 hquotes hbackslash _ _ _ _ _ =>
    split
    next hlow =>
      change (codePoint? _).map _ = _
      rw [hcontrol _ hlow, Char.ofNat_toNat]
      rfl
    next hhigh =>
      rw [List.singleton_append, character?]
      · simp [show c ≠ '"' from hquotes, show c ≠ '\\' from hbackslash, hhigh]
      · simp_all
      · simp_all
  all_goals rfl

theorem unquote_of_character? {cs rest : List Char} {c : Char}
    (h : character? cs = some (c, rest)) :
    unquote cs = (unquote rest).map fun (text, behind) => (c :: text, behind) := by
  have hquotes : cs.head? ≠ some '"' := by
    intro hhead
    obtain ⟨tail, rfl⟩ := List.head?_eq_some_iff.1 hhead
    cases h
  rw [unquote, if_neg hquotes]
  split
  next c' rest' h' =>
    rw [h] at h'
    cases h'
    rfl
  next h' =>
    rw [h] at h'
    cases h'

/-- A quoted text is read up to its closing quotes. -/
theorem unquote_escape (text rest : List Char) :
    unquote (text.flatMap escapeChar ++ '"' :: rest) = some (text, rest) := by
  induction text with
  | nil =>
    rw [unquote]
    rfl
  | cons c text ih =>
    rw [List.flatMap_cons, List.append_assoc, unquote_of_character? (character?_escapeChar c _), ih]
    rfl

/-! ### Texts of tokens -/

/-- The characters that may stand between tokens. -/
def isBlank (c : Char) : Bool := c == ' ' || c == '\n' || c == '\r' || c == '\t'

/-- The characters of words. -/
def isWordPart (c : Char) : Bool := c.isAlphanum || c == '+' || c == '-' || c == '.'

/-- The token that a mark is. -/
def mark? : Char → Option Token
  | '[' => some (.opening .square)
  | '\x7b' => some (.opening .curly)
  | ']' => some (.closing .square)
  | '\x7d' => some (.closing .curly)
  | ',' => some .comma
  | ':' => some .colon
  | _ => none

/-- The first token of a text that begins with one, and what follows it. -/
def token? : List Char → Option (Token × List Char)
  | [] => none
  | c :: cs =>
    match mark? c with
    | some token => some (token, cs)
    | none =>
      if c == '"' then (unquote cs).map fun (text, rest) => (.string (.ofList text), rest)
      else if isWordPart c then
        some (.word (.ofList (c :: cs.takeWhile isWordPart)), cs.dropWhile isWordPart)
      else none

theorem length_token? {cs rest : List Char} {token : Token} (h : token? cs = some (token, rest)) :
    rest.length < cs.length := by
  unfold token? at h
  split at h
  next => cases h
  next c cs =>
    split at h
    next =>
      cases h
      exact Nat.lt_succ_self _
    next =>
      split at h
      next =>
        obtain ⟨⟨text, behind⟩, hunquote, h⟩ := Option.map_eq_some_iff.1 h
        cases h
        exact (length_unquote hunquote).trans (Nat.lt_succ_self _)
      next =>
        split at h
        next =>
          cases h
          exact Nat.lt_succ_of_le (List.dropWhile_sublist _).length_le
        next => cases h

/-- The tokens of a text. -/
def lex : List Char → Option (List Token)
  | [] => some []
  | c :: cs =>
    if isBlank c then lex cs
    else
      match _ : token? (c :: cs) with
      | some (token, rest) => (lex rest).map (token :: ·)
      | none => none
termination_by cs => cs.length
decreasing_by
  · exact Nat.lt_succ_self _
  · exact length_token? ‹_›

/-- A text that is one word. -/
def IsWord (text : String) : Prop := text.toList ≠ [] ∧ ∀ c ∈ text.toList, isWordPart c = true

theorem mark?_of_isWordPart {c : Char} (h : isWordPart c = true) : mark? c = none := by
  unfold mark?
  split
  case h_7 => rfl
  all_goals exact absurd h (by decide)

/-- Not a number, nor `true` or `false`. -/
def Token.isWord : Token → Bool
  | .word _ => true
  | .opening _ | .closing _ | .comma | .colon | .string _ => false

theorem token?_text {token : Token} (h : token.isWord = false) (rest : List Char) :
    token? (token.text ++ rest) = some (token, rest) := by
  cases token with
  | opening bracket | closing bracket => cases bracket <;> rfl
  | comma | colon => rfl
  | string text =>
    have htext : (Token.string text).text ++ rest =
        '"' :: (text.toList.flatMap escapeChar ++ '"' :: rest) := by
      simp [Token.text, quote]
    have hmark : mark? '"' = none := rfl
    rw [htext, token?, hmark]
    dsimp only
    rw [if_pos (beq_self_eq_true _), unquote_escape, Option.map_some, String.ofList_toList]
  | word text => cases h

/-- A word is read if it ends where the word ends. -/
theorem token?_word {text : String} (h : IsWord text) {rest : List Char}
    (hrest : Breaks isWordPart rest) :
    token? (text.toList ++ rest) = some (.word text, rest) := by
  obtain ⟨hne, hparts⟩ := h
  obtain ⟨c, cs, hcs⟩ := List.exists_cons_of_ne_nil hne
  rw [hcs, List.forall_mem_cons] at hparts
  have hquotes : (c == '"') = false := by
    rw [beq_eq_false_iff_ne]
    rintro rfl
    exact absurd hparts.1 (by decide)
  have htext : String.ofList (c :: cs) = text := by rw [← hcs, String.ofList_toList]
  rw [hcs, List.cons_append, token?, mark?_of_isWordPart hparts.1]
  simp only [hquotes, hparts.1, takeWhile_append_of_breaks hparts.2 hrest,
    dropWhile_append_of_breaks hparts.2 hrest, htext, Bool.false_eq_true, if_false, if_true]

theorem lex_of_token? {cs rest : List Char} {token : Token} (h : token? cs = some (token, rest)) :
    lex cs = (lex rest).map (token :: ·) := by
  cases cs with
  | nil => cases h
  | cons c cs =>
    have hblank : ¬isBlank c = true := by
      intro hblank
      simp only [isBlank, Bool.or_eq_true, beq_iff_eq] at hblank
      rcases hblank with ((rfl | rfl) | rfl) | rfl <;> cases h
    rw [lex, if_neg hblank]
    split
    next h' =>
      rw [h] at h'
      cases h'
      rfl
    next h' =>
      rw [h] at h'
      cases h'

theorem lex_text {token : Token} (h : token.isWord = false) (rest : List Char) :
    lex (token.text ++ rest) = (lex rest).map (token :: ·) :=
  lex_of_token? (token?_text h rest)

theorem lex_blanks {blanks : List Char} (h : ∀ c ∈ blanks, isBlank c = true) (cs : List Char) :
    lex (blanks ++ cs) = lex cs := by
  induction blanks with
  | nil => rfl
  | cons c blanks ih =>
    obtain ⟨hc, hblanks⟩ := List.forall_mem_cons.1 h
    rw [List.cons_append, lex, if_pos hc, ih hblanks]

/-! ## The layout of tokens -/

/-- What stands in front of a token, as far as the layout goes. -/
inductive Edge
  | opening
  | comma
  | colon
  | value
deriving DecidableEq

/-- What a token is for the one behind it. -/
def Token.edge : Token → Edge
  | .opening _ => .opening
  | .comma => .comma
  | .colon => .colon
  | .closing _ | .string _ | .word _ => .value

/-- The number of open brackets behind a token. -/
def Token.depthBehind (depth : Nat) : Token → Nat
  | .opening _ => depth + 1
  | .closing _ => depth - 1
  | .comma | .colon | .string _ | .word _ => depth

/-- The start of a line, two spaces deeper for each open bracket. -/
def newLine (depth : Nat) : List Char := '\n' :: List.replicate (2 * depth) ' '

/-- What stands in front of a value: items start on new lines, and values follow their keys. -/
def lead (depth : Nat) : Edge → List Char
  | .opening | .comma => newLine depth
  | .colon => [' ']
  | .value => []

/-- What stands in front of a token. A closing bracket is on a line of its own, unless there is
nothing to close. -/
def gap (depth : Nat) (edge : Edge) : Token → List Char
  | .closing _ => if edge = .opening then [] else newLine (depth - 1)
  | .opening _ | .comma | .colon | .string _ | .word _ => lead depth edge

/-- Tokens with one item a line. -/
def layOut (depth : Nat) (edge : Edge) : List Token → List Char
  | [] => []
  | token :: tokens =>
    gap depth edge token ++ (token.text ++ layOut (token.depthBehind depth) token.edge tokens)

theorem toList_indent (depth : Nat) : (indent depth).toList = newLine depth := by
  simp [indent, newLine]

theorem lex_newLine (depth : Nat) (cs : List Char) : lex (newLine depth ++ cs) = lex cs := by
  refine lex_blanks ?_ cs
  rw [newLine, List.forall_mem_cons]
  refine ⟨rfl, fun c hc => ?_⟩
  rw [(List.mem_replicate.1 hc).2]
  rfl

/-- A text at a depth is the text of some tokens: they are read from it, and it is how they are laid
out there. -/
structure Prints (depth : Nat) (text : String) (tokens : List Token) : Prop where
  lex {rest : List Char} (hrest : Breaks isWordPart rest) :
    lex (text.toList ++ rest) = (lex rest).map (tokens ++ ·)
  layOut (edge : Edge) (rest : List Token) : layOut depth edge (tokens ++ rest) =
    lead depth edge ++ (text.toList ++ layOut depth .value rest)

namespace Prints

variable {depth : Nat}

theorem string (text : String) : Prints depth (quote text) [.string text] where
  lex {rest} _ := by
    have hlex : Json.lex ((Token.string text).text ++ rest) =
        (Json.lex rest).map (.string text :: ·) :=
      lex_text rfl rest
    simpa only [Token.text, List.cons_append, List.nil_append] using hlex
  layOut edge rest := by
    simp only [List.cons_append, List.nil_append, Json.layOut, gap, Token.text, Token.edge,
      Token.depthBehind]

theorem word {text : String} (h : IsWord text) : Prints depth text [.word text] where
  lex hrest := lex_of_token? (token?_word h hrest)
  layOut edge rest := by
    simp only [List.cons_append, List.nil_append, Json.layOut, gap, Token.text, Token.edge,
      Token.depthBehind]

theorem field {text : String} {tokens : List Token} (h : Prints depth text tokens) (key : String) :
    Prints depth (quote key ++ ": " ++ text) (.string key :: .colon :: tokens) := by
  have htext : (quote key ++ ": " ++ text).toList =
      (Token.string key).text ++ (Token.colon.text ++ ([' '] ++ text.toList)) := by
    simp [Token.text]
  constructor
  case lex =>
    intro rest hrest
    rw [htext]
    simp only [List.append_assoc]
    rw [lex_text rfl, lex_text rfl, lex_blanks (by simp [isBlank]), h.lex hrest, Option.map_map,
      Option.map_map]
    rfl
  case layOut =>
    intro edge rest
    rw [htext]
    simp only [List.cons_append, Json.layOut, gap, Token.depthBehind, Token.edge, h.layOut, lead,
      List.append_assoc, List.nil_append]

/-- Items with commas between them, on lines of their own. -/
theorem intercalate {items : List (String × List Token)} (hne : items ≠ [])
    (h : ∀ item ∈ items, Prints depth item.1 item.2) :
    Prints depth (("," ++ indent depth).intercalate (items.map Prod.fst))
      ([.comma].intercalate (items.map Prod.snd)) := by
  induction items with
  | nil => exact absurd rfl hne
  | cons item items ih =>
    obtain ⟨hitem, hitems⟩ := List.forall_mem_cons.1 h
    cases items with
    | nil => simpa using hitem
    | cons next items =>
      have hrest := ih (List.cons_ne_nil _ _) hitems
      simp only [List.map_cons] at hrest ⊢
      rw [String.intercalate_cons_cons, List.intercalate_cons_cons]
      generalize ("," ++ indent depth).intercalate (next.1 :: items.map Prod.fst) = text at hrest ⊢
      generalize [Token.comma].intercalate (next.2 :: items.map Prod.snd) = tokens at hrest ⊢
      have htext : (item.1 ++ ("," ++ indent depth) ++ text).toList =
          item.1.toList ++ (Token.comma.text ++ (newLine depth ++ text.toList)) := by
        simp [Token.text, toList_indent]
      constructor
      case lex =>
        intro rest hbreaks
        -- No word goes on over a comma, so the item in front is read as it is.
        have hcomma : Breaks isWordPart
            (Token.comma.text ++ (newLine depth ++ (text.toList ++ rest))) :=
          breaks_cons.2 rfl
        rw [htext]
        simp only [List.append_assoc]
        rw [hitem.lex hcomma, lex_text rfl, lex_newLine, hrest.lex hbreaks, Option.map_map,
          Option.map_map]
        simp [Function.comp_def]
      case layOut =>
        intro edge rest
        rw [htext]
        simp only [List.append_assoc, List.cons_append, List.nil_append, hitem.layOut, Json.layOut,
          gap, Token.depthBehind, Token.edge, hrest.layOut, lead]

/-- Items between brackets. -/
theorem block {opening closing : String} {bracket : Bracket}
    (hopening : opening.toList = (Token.opening bracket).text)
    (hclosing : closing.toList = (Token.closing bracket).text)
    {items : List (String × List Token)} (h : ∀ item ∈ items, Prints (depth + 1) item.1 item.2) :
    Prints depth (Json.block opening closing depth (items.map Prod.fst))
      (enclosed bracket (items.map Prod.snd)) := by
  rcases items.eq_nil_or_concat with rfl | hitems
  · have htext : (Json.block opening closing depth []).toList =
        (Token.opening bracket).text ++ (Token.closing bracket).text := by
      simp [Json.block, hopening, hclosing]
    rw [List.map_nil, List.map_nil]
    constructor
    case lex =>
      intro rest _
      rw [htext, List.append_assoc, lex_text rfl, lex_text rfl, Option.map_map]
      rfl
    case layOut =>
      intro edge rest
      rw [htext]
      simp [enclosed, Json.layOut, gap, Token.depthBehind, Token.edge]
  · have hne : items ≠ [] := by
      obtain ⟨init, last, rfl⟩ := hitems
      simp
    have hinner := intercalate hne h
    have hempty : (items.map Prod.fst).isEmpty = false := by simpa using hne
    rw [Json.block, if_neg (by rw [hempty]; exact Bool.false_ne_true), enclosed]
    generalize ("," ++ indent (depth + 1)).intercalate (items.map Prod.fst) = text at hinner ⊢
    generalize [Token.comma].intercalate (items.map Prod.snd) = tokens at hinner ⊢
    have htext : (opening ++ indent (depth + 1) ++ text ++ indent depth ++ closing).toList =
        (Token.opening bracket).text ++ (newLine (depth + 1) ++
          (text.toList ++ (newLine depth ++ (Token.closing bracket).text))) := by
      simp [toList_indent, hopening, hclosing]
    constructor
    case lex =>
      intro rest _
      have hline : Breaks isWordPart (newLine depth ++ ((Token.closing bracket).text ++ rest)) :=
        breaks_cons.2 rfl
      rw [htext]
      simp only [List.append_assoc]
      rw [lex_text rfl, lex_newLine, hinner.lex hline, lex_newLine, lex_text rfl, Option.map_map,
        Option.map_map]
      simp [Function.comp_def]
    case layOut =>
      intro edge rest
      rw [htext]
      simp only [List.append_assoc, List.cons_append, List.nil_append, Json.layOut, gap,
        Token.depthBehind, Token.edge, hinner.layOut, lead, reduceCtorEq, if_false,
        Nat.add_sub_cancel]

end Prints

/-! ## Documents that can be read -/

/-- Every number is a word that is no other document. -/
inductive IsLegible : Json → Prop
  | string (text : String) : IsLegible (.string text)
  | number {text : String} (hword : IsWord text) (htrue : text ≠ "true") (hfalse : text ≠ "false") :
    IsLegible (.number text)
  | bool (value : Bool) : IsLegible (.bool value)
  | array {items : List Json} (h : ∀ item ∈ items, IsLegible item) : IsLegible (.array items)
  | object {fields : List (String × Json)} (h : ∀ field ∈ fields, IsLegible field.2) :
    IsLegible (.object fields)

theorem itemTokens_eq_map (items : List Json) : itemTokens items = items.map tokens := by
  induction items with
  | nil => rfl
  | cons item items ih => rw [itemTokens, ih, List.map_cons]

theorem fieldTokens_eq_map (fields : List (String × Json)) :
    fieldTokens fields =
      fields.map fun field => .string field.1 :: .colon :: field.2.tokens := by
  induction fields with
  | nil => rfl
  | cons field fields ih => rw [fieldTokens, ih, List.map_cons]

theorem indentedItems_eq_map (depth : Nat) (items : List Json) :
    indentedItems depth items = items.map (indentedAt depth) := by
  induction items with
  | nil => rfl
  | cons item items ih => rw [indentedItems, ih, List.map_cons]

theorem indentedFields_eq_map (depth : Nat) (fields : List (String × Json)) :
    indentedFields depth fields =
      fields.map fun field => quote field.1 ++ ": " ++ field.2.indentedAt depth := by
  induction fields with
  | nil => rfl
  | cons field fields ih => rw [indentedFields, ih, List.map_cons]

theorem IsLegible.prints {json : Json} (h : IsLegible json) (depth : Nat) :
    Prints depth (json.indentedAt depth) json.tokens := by
  induction h generalizing depth with
  | string text => exact .string text
  | number hword => exact .word hword
  | bool value =>
    have hword : IsWord (if value then "true" else "false") := by
      cases value <;> exact ⟨by decide, List.all_eq_true.1 rfl⟩
    exact .word hword
  | @array items _ ih =>
    rw [indentedAt, tokens, indentedItems_eq_map, itemTokens_eq_map]
    have hitems : ∀ item ∈ items.map fun item => (item.indentedAt (depth + 1), item.tokens),
        Prints (depth + 1) item.1 item.2 :=
      List.forall_mem_map.2 fun item hitem => ih item hitem _
    have hblock : Prints depth (block "[" "]" depth _) (enclosed .square _) :=
      .block rfl rfl hitems
    simpa only [List.map_map, Function.comp_def] using hblock
  | @object fields _ ih =>
    rw [indentedAt, tokens, indentedFields_eq_map, fieldTokens_eq_map]
    have hfields : ∀ field ∈ fields.map fun field =>
        (quote field.1 ++ ": " ++ field.2.indentedAt (depth + 1),
          Token.string field.1 :: .colon :: field.2.tokens),
        Prints (depth + 1) field.1 field.2 := by
      refine List.forall_mem_map.2 fun field hfield => ?_
      exact (ih field hfield _).field field.1
    have hblock : Prints depth (block "\x7b" "\x7d" depth _) (enclosed .curly _) :=
      .block rfl rfl hfields
    simpa only [List.map_map, Function.comp_def] using hblock

/-! ## The reader -/

/-- An array or an object that is open, with the items or the fields in front. -/
inductive Frame
  | items (done : List Json)
  | fields (done : List (String × Json)) (key : Option String)

/-- A reader between two tokens: what is open, innermost first, and a value that is not yet an item
or a field of it. -/
structure Reader where
  stack : List Frame
  value : Option Json

/-- What a word stands for. Whether it is a number at all is left to who asks for one. -/
def ofWord (text : String) : Json :=
  if text = "true" then .bool true else if text = "false" then .bool false else .number text

/-- The step of a reader at a token. -/
def Reader.step : Reader → Token → Option Reader
  | ⟨stack, none⟩, .string text => some ⟨stack, some (.string text)⟩
  | ⟨stack, none⟩, .word text => some ⟨stack, some (ofWord text)⟩
  | ⟨stack, none⟩, .opening .square => some ⟨.items [] :: stack, none⟩
  | ⟨stack, none⟩, .opening .curly => some ⟨.fields [] none :: stack, none⟩
  -- Brackets are closed behind a value, or straight behind the opening one.
  | ⟨.items [] :: stack, none⟩, .closing .square => some ⟨stack, some (.array [])⟩
  | ⟨.fields [] none :: stack, none⟩, .closing .curly => some ⟨stack, some (.object [])⟩
  | ⟨.items done :: stack, some value⟩, .comma =>
    some ⟨.items (done ++ [value]) :: stack, none⟩
  | ⟨.items done :: stack, some value⟩, .closing .square =>
    some ⟨stack, some (.array (done ++ [value]))⟩
  | ⟨.fields done none :: stack, some (.string key)⟩, .colon =>
    some ⟨.fields done (some key) :: stack, none⟩
  | ⟨.fields done (some key) :: stack, some value⟩, .comma =>
    some ⟨.fields (done ++ [(key, value)]) none :: stack, none⟩
  | ⟨.fields done (some key) :: stack, some value⟩, .closing .curly =>
    some ⟨stack, some (.object (done ++ [(key, value)]))⟩
  | _, _ => none

/-- The run of a reader over tokens. -/
def Reader.run (reader : Reader) (tokens : List Token) : Option Reader :=
  tokens.foldlM Reader.step reader

/-- The document that a text is. -/
def read? (cs : List Char) : Option Json :=
  match (lex cs).bind (Reader.run ⟨[], none⟩) with
  | some ⟨[], some json⟩ => some json
  | _ => none

theorem Reader.run_cons {reader next : Reader} {token : Token} (h : reader.step token = some next)
    (tokens : List Token) : reader.run (token :: tokens) = next.run tokens := by
  rw [Reader.run, List.foldlM_cons, h]
  rfl

/-- If a reader takes one item at a time, it takes them all up to the closing bracket. -/
theorem Reader.run_intercalate {α : Type} {toTokens : α → List Token} {bracket : Bracket}
    (waiting closed : List α → Reader) (holding : List α → α → Reader)
    (hcomma : ∀ done item, (holding done item).step .comma = some (waiting (done ++ [item])))
    (hclosing : ∀ done item,
      (holding done item).step (.closing bracket) = some (closed (done ++ [item])))
    {items : List α} (hne : items ≠ [])
    (h : ∀ item ∈ items, ∀ done rest,
      (waiting done).run (toTokens item ++ rest) = (holding done item).run rest)
    (done : List α) (rest : List Token) :
    (waiting done).run ([.comma].intercalate (items.map toTokens) ++ .closing bracket :: rest) =
      (closed (done ++ items)).run rest := by
  induction items generalizing done with
  | nil => exact absurd rfl hne
  | cons item items ih =>
    obtain ⟨hitem, hitems⟩ := List.forall_mem_cons.1 h
    cases items with
    | nil =>
      rw [List.map_singleton, List.intercalate_singleton, hitem, run_cons (hclosing done item)]
    | cons next items =>
      have hrest := ih (List.cons_ne_nil _ _) hitems (done ++ [item])
      rw [List.map_cons] at hrest
      rw [List.map_cons, List.map_cons, List.intercalate_cons_cons, List.append_assoc,
        List.append_assoc, hitem, List.singleton_append, run_cons (hcomma done item), hrest,
        List.append_assoc, List.singleton_append]

/-- A document is read from its tokens, whatever is open in front of it. -/
theorem IsLegible.run {json : Json} (h : IsLegible json) (stack : List Frame) (rest : List Token) :
    Reader.run ⟨stack, none⟩ (json.tokens ++ rest) = Reader.run ⟨stack, some json⟩ rest := by
  -- An item is read on top of the frame of its array or object, so the stack is any stack.
  induction h generalizing stack rest with
  | string text => rfl
  | number hword htrue hfalse =>
    refine Reader.run_cons ?_ rest
    rw [Reader.step, ofWord, if_neg htrue, if_neg hfalse]
  | bool value => cases value <;> rfl
  | @array items _ ih =>
    rw [tokens, itemTokens_eq_map, enclosed, List.cons_append, List.append_assoc,
      Reader.run_cons rfl]
    cases items with
    | nil => rfl
    | cons item items =>
      exact Reader.run_intercalate (fun done => ⟨.items done :: stack, none⟩)
        (fun items => ⟨stack, some (.array items)⟩)
        (fun done item => ⟨.items done :: stack, some item⟩) (fun _ _ => rfl) (fun _ _ => rfl)
        (List.cons_ne_nil _ _) (fun item hitem _ _ => ih item hitem _ _) [] rest
  | @object fields _ ih =>
    rw [tokens, fieldTokens_eq_map, enclosed, List.cons_append, List.append_assoc,
      Reader.run_cons rfl]
    cases fields with
    | nil => rfl
    | cons field fields =>
      exact Reader.run_intercalate (fun done => ⟨.fields done none :: stack, none⟩)
        (fun fields => ⟨stack, some (.object fields)⟩)
        (fun done field => ⟨.fields done (some field.1) :: stack, some field.2⟩)
        (fun _ _ => rfl) (fun _ _ => rfl) (List.cons_ne_nil _ _)
        (fun field hfield _ _ => ih field hfield _ _) [] rest

section

variable {json : Json} (h : IsLegible json)
include h

theorem IsLegible.lex_indented : lex json.indented.toList = some json.tokens := by
  have hlex := (h.prints 0).lex Breaks.nil
  rwa [List.append_nil, lex, Option.map_some, List.append_nil] at hlex

/-- The indented text has one item a line. -/
theorem IsLegible.layOut_indented : layOut 0 .value json.tokens = json.indented.toList := by
  have hlayOut := (h.prints 0).layOut .value []
  rwa [List.append_nil, layOut, List.append_nil] at hlayOut

/-- The indented text is read as the document. -/
theorem IsLegible.read?_indented : read? json.indented.toList = some json := by
  have hrun := h.run [] []
  rw [List.append_nil] at hrun
  rw [read?, h.lex_indented, Option.bind_some, hrun]
  rfl

end

end PinQuery.Json
