import PinQuery.Proofs.Token.Numeral

/-!
# Words of a text

A word is a token without its place. What the scanner makes of a text does not depend on where the
text stands, so texts put together of words are scanned word by word.

* `IsCut cs words`: the text `cs` is cut into `words`, and nothing of it is faulty. There is one
  lemma for each form of word, saying what may follow it.
* `IsCut.tokensOf`: the tokens of such a source are its words.
* `Scan.IsLexeme`: the words that the scanner takes. Every token is one
  (`isLexeme_of_mem_tokensOf`), and so its text keeps the rules of its kind (`formed_of_mem_scan`).
* `readsAs_spaced`: such words can be written one after another, with spaces between them, and are
  read again.
-/

namespace PinQuery

open Text

/-- A kind of token with its text. -/
structure Word where
  kind : Kind
  text : List Char
deriving DecidableEq, Repr

/-- A token without its place. -/
def Token.word (token : Token) : Word := ⟨token.kind, token.text.toList⟩

namespace Scan

/-- A class without the five separators has none of them as a member. -/
theorem isSeparator_eq_false {p : Char → Bool} {c : Char}
    (hp : [' ', '\t', '\r', '\n', '\x0c'].any p = false) (hc : p c = true) :
    isSeparator c = false := by
  by_contra hsep
  simp only [isSeparator, Bool.not_eq_false, Bool.or_eq_true, beq_iff_eq] at hsep
  exact List.any_eq_false.1 hp c (by grind) hc

theorem isWordStart_eq_false_of_isDigit {c : Char} (hc : c.isDigit = true) :
    isWordStart c = false := by
  by_contra hstart
  simp only [isWordStart, Bool.not_eq_false, Bool.or_eq_true, beq_iff_eq] at hstart
  rcases hstart with hstart | rfl
  · have hdigit : c.toNat ≤ 57 := (Char.isDigit_iff_toNat.1 hc).2
    have hletter : 65 ≤ c.toNat := by
      rcases Bool.or_eq_true_iff.1 hstart with hupper | hlower
      · exact UInt32.le_iff_toNat_le.1 (of_decide_eq_true hupper).1
      · have hle : 97 ≤ c.toNat :=
          UInt32.le_iff_toNat_le.1 (of_decide_eq_true (Bool.and_eq_true_iff.1 hlower).1)
        omega
    omega
  · exact absurd hc (by decide)

theorem wordKind_spelling (keyword : Keyword) :
    wordKind keyword.spelling.toList = .keyword keyword := by
  cases keyword <;> decide +kernel

/-- Keywords are words of letters. -/
theorem exists_spelling_eq_cons (keyword : Keyword) : ∃ c tail,
    keyword.spelling.toList = c :: tail ∧ isWordStart c = true ∧
      ∀ d ∈ tail, isWordPart d = true := by
  cases keyword <;> exact ⟨_, _, rfl, rfl, List.all_eq_true.1 rfl⟩

theorem lexeme_quotedName {inside : List Char} (hinside : ∀ c ∈ inside, isQuotable c)
    (rest : List Char) : lexeme '\x60' ((inside ++ ['\x60']) ++ rest) =
      (some .quotedName, (inside ++ ['\x60']).length) := by
  have hbreaks : Breaks isQuotable ('\x60' :: rest) := by simp [isQuotable]
  have htake := takeWhile_append_of_breaks hinside hbreaks
  simp [lexeme, isWordStart, htake]

/-- A symbol is taken as such: no other lexeme begins with its first character. -/
theorem lexeme_of_symbol? {c : Char} {cs : List Char} {kind : Kind} {more : Nat}
    (h : symbol? c cs = some (kind, more)) :
    isSeparator c = false ∧ lexeme c cs = (some kind, more) := by
  have hc : c ∈ ['=', '!', '<', '>', '+', '-', '(', ')', ',', ';'] := by
    unfold symbol? at h
    split at h <;> simp at h ⊢
  have hclass : ['=', '!', '<', '>', '+', '-', '(', ')', ',', ';'].any (fun d =>
      isSeparator d || isWordStart d || d.isDigit || d == '\x60') = false := by decide
  have hnone := List.any_eq_false.1 hclass c hc
  simp only [Bool.or_eq_true, not_or, Bool.not_eq_true] at hnone
  obtain ⟨⟨⟨hsep, hword⟩, hdigit⟩, hquote⟩ := hnone
  exact ⟨hsep, by simp [lexeme, hword, hdigit, hquote, h]⟩

end Scan

/-! ## Cutting a text into words -/

/-- A text is cut into words without a fault, wherever it stands. -/
def IsCut (cs : List Char) (words : List Word) : Prop :=
  ∀ offset, ∃ tokens : List Token, tokens.map Token.word = words ∧
    (Scan.piecesFrom offset cs).map Scan.Piece.token? = tokens.map some

namespace IsCut

variable {rest : List Char} {words : List Word}

theorem nil : IsCut [] [] := fun offset => ⟨[], rfl, by simp [Scan.piecesFrom]⟩

theorem separator {c : Char} (hc : Scan.isSeparator c = true) (h : IsCut rest words) :
    IsCut (c :: rest) words := fun offset => by
  rw [Scan.piecesFrom, if_pos hc]
  exact h _

theorem space (h : IsCut rest words) : IsCut (' ' :: rest) words := h.separator rfl

theorem separators {gap : List Char} (hgap : ∀ c ∈ gap, Scan.isSeparator c = true)
    (h : IsCut rest words) : IsCut (gap ++ rest) words := by
  induction gap with
  | nil => exact h
  | cons c gap ih =>
    obtain ⟨hc, hgap⟩ := List.forall_mem_cons.1 hgap
    exact (ih hgap).separator hc

/-- A lexeme is taken as a whole, and scanning goes on behind it. -/
theorem lexeme {c : Char} {tail : List Char} {kind : Kind} (hc : Scan.isSeparator c = false)
    (hlexeme : Scan.lexeme c (tail ++ rest) = (some kind, tail.length)) (h : IsCut rest words) :
    IsCut (c :: tail ++ rest) (⟨kind, c :: tail⟩ :: words) := fun offset => by
  obtain ⟨tokens, hwords, hpieces⟩ := h (offset + byteLength (c :: tail))
  refine ⟨⟨kind, String.ofList (c :: tail), offset, offset + byteLength (c :: tail)⟩ :: tokens,
    ?_, ?_⟩
  · simp [Token.word, hwords]
  · rw [List.cons_append, Scan.piecesFrom, if_neg (by simp [hc])]
    simp only [hlexeme, List.take_left, List.drop_left, List.map_cons, hpieces]
    rfl

/-- Words of letters run up to a character that cannot go on with them. -/
theorem word {c : Char} {tail : List Char} (hc : Scan.isWordStart c = true)
    (htail : ∀ d ∈ tail, Scan.isWordPart d) (hrest : Breaks Scan.isWordPart rest)
    (h : IsCut rest words) :
    IsCut (c :: tail ++ rest) (⟨Scan.wordKind (c :: tail), c :: tail⟩ :: words) := by
  refine lexeme (Scan.isSeparator_eq_false rfl hc) ?_ h
  simp only [Scan.lexeme, hc, if_true, takeWhile_append_of_breaks htail hrest]

theorem keyword (keyword : Keyword) (hrest : Breaks Scan.isWordPart rest) (h : IsCut rest words) :
    IsCut (keyword.spelling.toList ++ rest)
      (⟨.keyword keyword, keyword.spelling.toList⟩ :: words) := by
  obtain ⟨c, tail, htext, hc, htail⟩ := Scan.exists_spelling_eq_cons keyword
  have hkind := Scan.wordKind_spelling keyword
  rw [htext] at hkind ⊢
  rw [← hkind]
  exact word hc htail hrest h

/-- Names between backticks hold anything but backticks and line feeds. -/
theorem quotedName {inside : List Char} (hinside : ∀ c ∈ inside, Scan.isQuotable c)
    (h : IsCut rest words) :
    IsCut ('\x60' :: (inside ++ '\x60' :: rest))
      (⟨.quotedName, '\x60' :: (inside ++ ['\x60'])⟩ :: words) := by
  simpa using lexeme (by decide) (Scan.lexeme_quotedName hinside rest) h

/-- Numerals run up to a character that cannot go on with them. -/
theorem numeral (n : Numeral) (hrest : Breaks isNumeralPart rest) (h : IsCut rest words) :
    IsCut (n.text ++ rest) (⟨.number, n.text⟩ :: words) := by
  obtain ⟨c, tail, htext, hdigit⟩ := n.exists_text_eq_cons
  have hstart := Scan.isWordStart_eq_false_of_isDigit hdigit
  rw [htext]
  refine lexeme (Scan.isSeparator_eq_false rfl hdigit) ?_ h
  simp [Scan.lexeme, hstart, hdigit, n.numberTail_append htext hrest]

theorem symbol {c : Char} {tail : List Char} {kind : Kind}
    (hsymbol : Scan.symbol? c (tail ++ rest) = some (kind, tail.length)) (h : IsCut rest words) :
    IsCut (c :: tail ++ rest) (⟨kind, c :: tail⟩ :: words) := by
  obtain ⟨hsep, hlexeme⟩ := Scan.lexeme_of_symbol? hsymbol
  exact lexeme hsep hlexeme h

theorem mark {c : Char} {kind : Kind} (hsymbol : Scan.symbol? c rest = some (kind, 0))
    (h : IsCut rest words) : IsCut (c :: rest) (⟨kind, [c]⟩ :: words) :=
  symbol hsymbol h

/-- The tokens of a source that is cut into words are these words, and the source has no fault. -/
theorem tokensOf {source : String} (h : IsCut source.toList words) :
    (PinQuery.tokensOf source).map Token.word = words ∧ faultsOf source = [] := by
  obtain ⟨tokens, hwords, hpieces⟩ := h 0
  have hpieces : (Scan.pieces source).map Scan.Piece.token? = tokens.map some := hpieces
  constructor
  · have htokens : PinQuery.tokensOf source = tokens := by
      rw [PinQuery.tokensOf, ← Function.id_comp Scan.Piece.token?, ← List.filterMap_map, hpieces]
      simp
    rw [htokens, hwords]
  · rw [faultsOf, List.filterMap_eq_nil_iff]
    intro piece hpiece
    have hmem : piece.token? ∈ tokens.map some := hpieces ▸ List.mem_map_of_mem hpiece
    obtain ⟨token, -, htoken⟩ := List.mem_map.1 hmem
    obtain ⟨_ | kind, text, span⟩ := piece
    · cases htoken
    · rfl

end IsCut

/-! ## Texts by the tokens that are read from them -/

/-- A text before which every word ends: it is empty or begins with a space, a closing parenthesis
or a comma. -/
def EndsWord (rest : List Char) : Prop := ∀ c ∈ rest.head?, c ∈ [' ', ')', ',']

theorem EndsWord.breaks {p : Char → Bool} {rest : List Char} (h : EndsWord rest)
    (hp : [' ', ')', ','].any p = false) : Breaks p rest :=
  fun c hc => by simpa using List.any_eq_false.1 hp c (h c hc)

theorem EndsWord.cases {rest : List Char} (h : EndsWord rest) :
    rest = [] ∨ ∃ tail, rest = ' ' :: tail ∨ rest = ')' :: tail ∨ rest = ',' :: tail := by
  cases rest with
  | nil => exact .inl rfl
  | cons c tail =>
    have hc : c = ' ' ∨ c = ')' ∨ c = ',' := by simpa using h c rfl
    exact .inr ⟨tail, by simpa using hc⟩

/-- Before the end of a word, a text is cut into tokens with a given property. -/
def ReadsAs (cs : List Char) (P : List Token → Prop) : Prop :=
  ∃ words, (∀ tokens : List Token, tokens.map Token.word = words → P tokens) ∧
    ∀ rest more, EndsWord rest → IsCut rest more →
      IsCut (cs ++ rest) (words ++ more)

namespace ReadsAs

variable {cs ds : List Char} {P Q R : List Token → Prop}

theorem mono (h : ReadsAs cs P) (hPQ : ∀ tokens, P tokens → Q tokens) : ReadsAs cs Q := by
  obtain ⟨words, hwords, hcut⟩ := h
  exact ⟨words, fun tokens htokens => hPQ tokens (hwords tokens htokens), hcut⟩

/-- A text that is one word. -/
theorem single (word : Word) (hP : ∀ token : Token, token.word = word → P [token])
    (hcut : ∀ rest more, EndsWord rest → IsCut rest more → IsCut (cs ++ rest) (word :: more)) :
    ReadsAs cs P := by
  refine ⟨[word], fun tokens htokens => ?_, hcut⟩
  obtain ⟨token, tail, rfl, hword, htail⟩ := List.map_eq_cons_iff.1 htokens
  rw [List.map_eq_nil_iff.1 htail]
  exact hP token hword

theorem keyword (keyword : Keyword) :
    ReadsAs keyword.spelling.toList fun tokens =>
      ∃ token : Token, tokens = [token] ∧ token.kind = .keyword keyword := by
  refine single ⟨.keyword keyword, keyword.spelling.toList⟩ ?_ ?_
  · intro token hword
    exact ⟨token, rfl, congrArg Word.kind hword⟩
  · intro rest more hrest h
    exact h.keyword keyword (hrest.breaks rfl)

theorem quotedName {inside : List Char} (hinside : ∀ c ∈ inside, Scan.isQuotable c)
    (hP : ∀ token : Token, token.kind = .quotedName →
      token.text.toList = '\x60' :: (inside ++ ['\x60']) → P [token]) :
    ReadsAs ('\x60' :: (inside ++ ['\x60'])) P := by
  refine single ⟨.quotedName, '\x60' :: (inside ++ ['\x60'])⟩ ?_ ?_
  · intro token hword
    exact hP token (congrArg Word.kind hword) (congrArg Word.text hword)
  · intro rest more hrest h
    simpa using h.quotedName hinside

theorem numeral (n : Numeral)
    (hP : ∀ token : Token, token.kind = .number → token.text.toList = n.text → P [token]) :
    ReadsAs n.text P := by
  refine single ⟨.number, n.text⟩ ?_ ?_
  · intro token hword
    exact hP token (congrArg Word.kind hword) (congrArg Word.text hword)
  · intro rest more hrest h
    exact h.numeral n (hrest.breaks rfl)

theorem symbol {c : Char} {tail : List Char} (kind : Kind)
    (hsymbol : ∀ rest, EndsWord rest → Scan.symbol? c (tail ++ rest) = some (kind, tail.length))
    (hP : ∀ token : Token, token.kind = kind → P [token]) : ReadsAs (c :: tail) P := by
  refine single ⟨kind, c :: tail⟩ ?_ ?_
  · intro token hword
    exact hP token (congrArg Word.kind hword)
  · intro rest more hrest h
    exact h.symbol (hsymbol rest hrest)

/-- A minus before a numeral. -/
theorem minus (n : Numeral)
    (hP : ∀ sign token : Token, sign.kind = .minus → token.kind = .number →
      token.text.toList = n.text → P [sign, token]) : ReadsAs ('-' :: n.text) P := by
  refine ⟨[⟨.minus, ['-']⟩, ⟨.number, n.text⟩], ?_, ?_⟩
  · intro tokens htokens
    obtain ⟨sign, tail, rfl, hsign, htail⟩ := List.map_eq_cons_iff.1 htokens
    obtain ⟨token, tail', rfl, htoken, htail'⟩ := List.map_eq_cons_iff.1 htail
    rw [List.map_eq_nil_iff.1 htail']
    exact hP sign token (congrArg Word.kind hsign) (congrArg Word.kind htoken)
      (congrArg Word.text htoken)
  · intro rest more hrest h
    exact (h.numeral n (hrest.breaks rfl)).mark rfl

/-- A text between parentheses. -/
theorem paren (h : ReadsAs cs P)
    (hQ : ∀ (opening closing : Token) (tokens : List Token), opening.kind = .leftParen →
      closing.kind = .rightParen → P tokens → Q (opening :: (tokens ++ [closing]))) :
    ReadsAs ('(' :: (cs ++ [')'])) Q := by
  obtain ⟨words, hwords, hcut⟩ := h
  refine ⟨⟨.leftParen, ['(']⟩ :: (words ++ [⟨.rightParen, [')']⟩]), ?_, ?_⟩
  · intro tokens htokens
    obtain ⟨opening, tail, rfl, hopening, htail⟩ := List.map_eq_cons_iff.1 htokens
    obtain ⟨inner, last, rfl, hinner, hlast⟩ := List.map_eq_append_iff.1 htail
    obtain ⟨closing, tail', rfl, hclosing, htail'⟩ := List.map_eq_cons_iff.1 hlast
    rw [List.map_eq_nil_iff.1 htail']
    exact hQ opening closing inner (congrArg Word.kind hopening) (congrArg Word.kind hclosing)
      (hwords inner hinner)
  · intro rest more hrest h
    have hclosing : IsCut (')' :: rest) (⟨.rightParen, [')']⟩ :: more) := h.mark rfl
    have hinner := hcut (')' :: rest) _ (by simp [EndsWord]) hclosing
    have hopening : IsCut ('(' :: (cs ++ ')' :: rest))
        (⟨.leftParen, ['(']⟩ :: (words ++ ⟨.rightParen, [')']⟩ :: more)) := hinner.mark rfl
    simpa using hopening

/-- Two texts with a space between them. -/
theorem space (h : ReadsAs cs P) (h' : ReadsAs ds Q)
    (hR : ∀ tokens tokens', P tokens → Q tokens' → R (tokens ++ tokens')) :
    ReadsAs (cs ++ ' ' :: ds) R := by
  obtain ⟨words, hwords, hcut⟩ := h
  obtain ⟨words', hwords', hcut'⟩ := h'
  refine ⟨words ++ words', ?_, ?_⟩
  · intro tokens htokens
    obtain ⟨left, right, rfl, hleft, hright⟩ := List.map_eq_append_iff.1 htokens
    exact hR left right (hwords left hleft) (hwords' right hright)
  · intro rest more hrest h
    rw [List.append_assoc, List.append_assoc]
    refine hcut _ _ ?_ ?_
    · simp [EndsWord]
    · exact (hcut' rest more hrest h).space

/-- Three texts with spaces between them. -/
theorem between {ms : List Char} {M : List Token → Prop} (h : ReadsAs cs P) (hm : ReadsAs ms M)
    (h' : ReadsAs ds Q) (hR : ∀ tokens middle tokens', P tokens → M middle → Q tokens' →
      R (tokens ++ (middle ++ tokens'))) :
    ReadsAs (cs ++ ' ' :: (ms ++ ' ' :: ds)) R := by
  have hright : ReadsAs (ms ++ ' ' :: ds) fun tokens =>
      ∃ middle tokens', tokens = middle ++ tokens' ∧ M middle ∧ Q tokens' :=
    hm.space h' fun middle tokens' hmiddle htokens' => ⟨middle, tokens', rfl, hmiddle, htokens'⟩
  refine h.space hright ?_
  rintro tokens _ htokens ⟨middle, tokens', rfl, hmiddle, htokens'⟩
  exact hR tokens middle tokens' htokens hmiddle htokens'

/-- Two texts with a comma and a space between them. -/
theorem comma (h : ReadsAs cs P) (h' : ReadsAs ds Q)
    (hR : ∀ (tokens tokens' : List Token) (comma : Token), P tokens → comma.kind = .comma →
      Q tokens' → R (tokens ++ comma :: tokens')) :
    ReadsAs (cs ++ ',' :: ' ' :: ds) R := by
  obtain ⟨words, hwords, hcut⟩ := h
  obtain ⟨words', hwords', hcut'⟩ := h'
  refine ⟨words ++ ⟨.comma, [',']⟩ :: words', ?_, ?_⟩
  · intro tokens htokens
    obtain ⟨left, tail, rfl, hleft, htail⟩ := List.map_eq_append_iff.1 htokens
    obtain ⟨comma, right, rfl, hcomma, hright⟩ := List.map_eq_cons_iff.1 htail
    exact hR left right comma (hwords left hleft) (congrArg Word.kind hcomma) (hwords' right hright)
  · intro rest more hrest h
    rw [List.append_assoc, List.append_assoc]
    refine hcut _ _ ?_ ?_
    · simp [EndsWord]
    · exact (hcut' rest more hrest h).space.mark rfl

/-- A source has no fault, and its tokens are those of its text. -/
theorem tokensOf {source : String} (h : ReadsAs source.toList P) :
    faultsOf source = [] ∧ P (PinQuery.tokensOf source) := by
  obtain ⟨words, hwords, hcut⟩ := h
  have hsource : IsCut source.toList words := by
    simpa using hcut [] [] (by simp [EndsWord]) .nil
  exact ⟨hsource.tokensOf.2, hwords _ hsource.tokensOf.1⟩

end ReadsAs

/-! ## The form of tokens -/

/-- What the scanner promises of the text of a token: bare names are words, and quoted names stand
between two backticks on one line. -/
structure Token.Formed (token : Token) : Prop where
  name : token.kind = .name → ∀ c ∈ token.text.toList, Scan.isWordPart c = true
  quotedName : token.kind = .quotedName → ∃ inside, (∀ c ∈ inside, Scan.isQuotable c = true) ∧
    token.text.toList = '\x60' :: (inside ++ ['\x60'])

namespace Scan

theorem isWordPart_of_isWordStart {c : Char} (h : isWordStart c = true) : isWordPart c = true := by
  simp only [isWordStart, isWordPart, Char.isAlphanum, Bool.or_eq_true] at h ⊢
  grind

/-- The words that the scanner takes: words of letters, numerals, names between backticks, and
symbols that stay what they are before the end of a word. -/
inductive IsLexeme : Kind → List Char → Prop
  | word {c : Char} {tail : List Char} (hc : isWordStart c = true)
      (htail : ∀ d ∈ tail, isWordPart d = true) : IsLexeme (wordKind (c :: tail)) (c :: tail)
  | numeral (n : Numeral) : IsLexeme .number n.text
  | quotedName {inside : List Char} (hinside : ∀ c ∈ inside, isQuotable c = true) :
      IsLexeme .quotedName ('\x60' :: (inside ++ ['\x60']))
  | symbol {c : Char} {tail : List Char} {kind : Kind}
      (hsymbol : ∀ rest, EndsWord rest → symbol? c (tail ++ rest) = some (kind, tail.length)) :
      IsLexeme kind (c :: tail)

theorem symbol?_take_append {c : Char} {cs rest : List Char} {kind : Kind} {more : Nat}
    (h : symbol? c cs = some (kind, more)) (hrest : EndsWord rest) :
    symbol? c (cs.take more ++ rest) = some (kind, (cs.take more).length) := by
  unfold symbol? at h
  split at h <;> cases h <;>
    obtain rfl | ⟨tail, rfl | rfl | rfl⟩ := hrest.cases <;> rfl

theorem isLexeme_of_lexeme {c : Char} {cs : List Char} {kind : Kind} {more : Nat}
    (h : lexeme c cs = (some kind, more)) : IsLexeme kind (c :: cs.take more) := by
  unfold lexeme at h
  split at h
  next hstart =>
    cases h
    rw [← List.prefix_iff_eq_take.1 (List.takeWhile_prefix _)]
    exact .word hstart fun d => List.mem_takeWhile_imp
  next =>
    split at h
    next hdigit =>
      cases h
      obtain ⟨n, hn⟩ := exists_numeral hdigit cs
      rw [← List.prefix_iff_eq_take.1 (numberTail_isPrefix cs), ← hn]
      exact .numeral n
    next =>
      split at h
      next hquote =>
        dsimp only at h
        split at h
        next rest hrest =>
          cases h
          have hc : c = '\x60' := by simpa using hquote
          have hinside : cs.take (cs.takeWhile isQuotable).length = cs.takeWhile isQuotable :=
            (List.prefix_iff_eq_take.1 (List.takeWhile_prefix _)).symm
          have htext : cs.take ((cs.takeWhile isQuotable).length + 1) =
              cs.takeWhile isQuotable ++ ['\x60'] := by
            simp [List.take_add, hinside, hrest]
          rw [hc, htext]
          exact .quotedName fun d => List.mem_takeWhile_imp
        next => cases h
      next =>
        split at h
        next kind' more' hsymbol =>
          cases h
          exact .symbol fun rest => symbol?_take_append hsymbol
        next => cases h

theorem isLexeme_of_mem_piecesFrom (offset : Nat) (cs : List Char) :
    ∀ piece ∈ piecesFrom offset cs, ∀ token, piece.token? = some token →
      IsLexeme token.kind token.text.toList := by
  induction offset, cs using piecesFrom.induct with
  | case1 => simp [piecesFrom]
  | case2 offset c cs hsep ih =>
    rw [piecesFrom, if_pos hsep]
    exact ih
  | case3 offset c cs hsep kind more hlexeme taken stop ih =>
    rw [piecesFrom, if_neg hsep, hlexeme]
    intro piece hpiece token htoken
    rcases List.mem_cons.1 hpiece with rfl | hpiece
    · cases kind with
      | none => cases htoken
      | some kind =>
        cases htoken
        rw [String.toList_ofList]
        exact isLexeme_of_lexeme hlexeme
    · exact ih piece hpiece token htoken

theorem kind_of_symbol? {c : Char} {cs : List Char} {kind : Kind} {more : Nat}
    (h : symbol? c cs = some (kind, more)) :
    kind ≠ .name ∧ kind ≠ .quotedName ∧ kind ≠ .endOfQuery := by
  unfold symbol? at h
  split at h <;> cases h <;> simp

theorem wordKind_ne {word : List Char} {kind : Kind} (hname : kind ≠ .name)
    (hkeyword : ∀ keyword, kind ≠ .keyword keyword) : wordKind word ≠ kind := by
  unfold wordKind
  split
  next keyword _ => exact (hkeyword keyword).symm
  next => exact hname.symm

namespace IsLexeme

variable {kind : Kind} {text : List Char}

theorem keyword (keyword : Keyword) : IsLexeme (.keyword keyword) keyword.spelling.toList := by
  obtain ⟨c, tail, htext, hc, htail⟩ := exists_spelling_eq_cons keyword
  rw [← wordKind_spelling keyword, htext]
  exact .word hc htail

theorem ne_endOfQuery (h : IsLexeme kind text) : kind ≠ .endOfQuery := by
  cases h with
  | word => exact wordKind_ne (by simp) (by simp)
  | numeral | quotedName => simp
  | symbol hsymbol => exact (kind_of_symbol? (hsymbol [] (by simp [EndsWord]))).2.2

theorem isWordPart_of_name (h : IsLexeme kind text) (hkind : kind = .name) :
    ∀ c ∈ text, isWordPart c = true := by
  cases h with
  | word hc htail =>
    intro d hd
    rcases List.mem_cons.1 hd with rfl | hd
    · exact isWordPart_of_isWordStart hc
    · exact htail d hd
  | numeral | quotedName => cases hkind
  | symbol hsymbol => exact absurd hkind (kind_of_symbol? (hsymbol [] (by simp [EndsWord]))).1

theorem exists_inside_of_quotedName (h : IsLexeme kind text) (hkind : kind = .quotedName) :
    ∃ inside, (∀ c ∈ inside, isQuotable c = true) ∧ text = '\x60' :: (inside ++ ['\x60']) := by
  cases h with
  | word => exact absurd hkind (wordKind_ne (by simp) (by simp))
  | numeral => cases hkind
  | quotedName hinside => exact ⟨_, hinside, rfl⟩
  | symbol hsymbol => exact absurd hkind (kind_of_symbol? (hsymbol [] (by simp [EndsWord]))).2.1

/-- A word that the scanner takes is taken again wherever a word may end behind it. -/
theorem readsAs (h : IsLexeme kind text) :
    ReadsAs text fun tokens => tokens.map Token.word = [⟨kind, text⟩] := by
  cases h with
  | @word c tail hc htail =>
    refine .single ⟨wordKind (c :: tail), c :: tail⟩ (fun token hword => by simp [hword]) ?_
    exact fun rest more hrest h => h.word hc htail (hrest.breaks rfl)
  | numeral n =>
    refine .numeral n fun token hkind htext => ?_
    simp [Token.word, hkind, htext]
  | quotedName hinside =>
    refine .quotedName hinside fun token hkind htext => ?_
    simp [Token.word, hkind, htext]
  | @symbol c tail kind hsymbol =>
    refine .single ⟨kind, c :: tail⟩ (fun token hword => by simp [hword]) ?_
    exact fun rest more hrest h => h.symbol (hsymbol rest hrest)

end IsLexeme

end Scan

theorem isLexeme_of_mem_tokensOf {source : String} {token : Token} (h : token ∈ tokensOf source) :
    Scan.IsLexeme token.kind token.text.toList := by
  obtain ⟨piece, hpiece, htoken⟩ := List.mem_filterMap.1 h
  exact Scan.isLexeme_of_mem_piecesFrom 0 _ piece hpiece token htoken

theorem formed_of_mem_scan {source : String} {token : Token} (h : token ∈ scan source) :
    token.Formed := by
  rcases List.mem_append.1 h with h | h
  · have hlexeme := isLexeme_of_mem_tokensOf h
    exact ⟨hlexeme.isWordPart_of_name, hlexeme.exists_inside_of_quotedName⟩
  · cases List.mem_singleton.1 h
    exact ⟨by simp [Token.endAt], by simp [Token.endAt]⟩

/-! ## Texts of given words -/

/-- The texts of words, each with a space behind it. -/
def spaced (words : List Word) : List Char := words.flatMap fun word => word.text ++ [' ']

/-- The words that the scanner takes can be written one after another and are taken again. -/
theorem readsAs_spaced {words : List Word}
    (h : ∀ word ∈ words, Scan.IsLexeme word.kind word.text) :
    ReadsAs (spaced words) fun tokens => tokens.map Token.word = words := by
  induction words with
  | nil => exact ⟨[], fun tokens htokens => htokens, fun rest more _ hcut => hcut⟩
  | cons word words ih =>
    have hfirst := (h word (by simp)).readsAs
    have hrest := ih fun word hmem => h word (by simp [hmem])
    have hspaced : spaced (word :: words) = word.text ++ ' ' :: spaced words := by
      simp [spaced]
    rw [hspaced]
    refine hfirst.space hrest fun tokens tokens' hword hwords => ?_
    rw [List.map_append, hword, hwords]
    rfl

end PinQuery
