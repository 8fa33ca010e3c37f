import Mathlib.Computability.Language
import PinQuery.Proofs.Token.Words

/-!
# Lexical rules

The rules for the texts of tokens, as regular expressions:

    word        [A-Za-z_][A-Za-z0-9_]*
    quotedName  `[^`\n]*`
    number      [0-9]+(\.[0-9]+)?([eE][+-]?[0-9]+)?
    mark        one of  =  ==  !=  <>  <  <=  >  >=  +  -  (  )  ,  ;

* `Rule.language` are the texts of a rule. The scanner knows none of these expressions;
  `mem_word_iff` and its companions say what they come to for its own classes of characters.
* `Scan.exists_lexeme_of_mem_language`: wherever a text of some rule stands, the scanner takes a
  token that is at least as long.
* `IsLongestMatch`: a text is one of its kind's rule, and no rule has a longer one in its place.
  What the scanner takes are exactly these (`Scan.lexeme_eq_some_iff`), and it takes none exactly
  where no rule has a text (`Scan.lexeme_eq_none_iff`).
-/

namespace PinQuery

open Text
open scoped Computability

/-! ## The rules -/

/-- The rules for the texts of tokens. -/
inductive Rule
  | word
  | quotedName
  | number
  /-- An operator or a punctuation mark. -/
  | mark (kind : Kind)
deriving DecidableEq, Repr

/-- The text of an operator or a punctuation mark. -/
def Kind.mark? : Kind → Option (List Char)
  | .equal => some ['=']
  | .doubleEqual => some ['=', '=']
  | .bangEqual => some ['!', '=']
  | .lessGreater => some ['<', '>']
  | .less => some ['<']
  | .lessEqual => some ['<', '=']
  | .greater => some ['>']
  | .greaterEqual => some ['>', '=']
  | .plus => some ['+']
  | .minus => some ['-']
  | .leftParen => some ['(']
  | .rightParen => some [')']
  | .comma => some [',']
  | .semicolon => some [';']
  | _ => none

/-- The rule for the texts of a kind of token. Keywords are words; the end of the query has no
text. -/
def Kind.rule : Kind → Rule
  | .keyword _ | .name => .word
  | .quotedName => .quotedName
  | .number => .number
  | kind => .mark kind

namespace Rule

/-- One character with a property. -/
def char (p : Char → Prop) : Language Char := {cs | ∃ c, p c ∧ cs = [c]}

/-- The letters of a word. -/
def IsLetter (c : Char) : Prop := 'A' ≤ c ∧ c ≤ 'Z' ∨ 'a' ≤ c ∧ c ≤ 'z' ∨ c = '_'

/-- The decimal digits. -/
def IsDigit (c : Char) : Prop := '0' ≤ c ∧ c ≤ '9'

/-- Digits, at least one. -/
def digits : Language Char := char IsDigit * (char IsDigit)∗

/-- A point and digits, or nothing. -/
def fraction : Language Char := 1 + char (· = '.') * digits

/-- A mark, an optional sign and digits, or nothing. -/
def exponent : Language Char :=
  1 + char (fun c => c = 'e' ∨ c = 'E') * (1 + char (fun c => c = '+' ∨ c = '-')) * digits

/-- The texts of a rule. -/
def language : Rule → Language Char
  | .word => char IsLetter * (char fun c => IsLetter c ∨ IsDigit c)∗
  | .quotedName => char (· = '\x60') * (char fun c => c ≠ '\x60' ∧ c ≠ '\n')∗ * char (· = '\x60')
  | .number => digits * fraction * exponent
  | .mark kind => {cs | kind.mark? = some cs}

/-! ## The texts of the rules -/

section

variable {p : Char → Prop} {l : Language Char} {cs : List Char}

theorem mem_char : cs ∈ char p ↔ ∃ c, p c ∧ cs = [c] := Iff.rfl

theorem mem_char_mul : cs ∈ char p * l ↔ ∃ c tail, p c ∧ tail ∈ l ∧ cs = c :: tail := by
  rw [Language.mem_mul]
  constructor
  · rintro ⟨_, ⟨c, hc, rfl⟩, tail, htail, rfl⟩
    exact ⟨c, tail, hc, htail, rfl⟩
  · rintro ⟨c, tail, hc, htail, rfl⟩
    exact ⟨[c], ⟨c, hc, rfl⟩, tail, htail, rfl⟩

theorem mem_kstar_char : cs ∈ (char p)∗ ↔ ∀ c ∈ cs, p c := by
  rw [Language.mem_kstar]
  constructor
  · rintro ⟨parts, rfl, hparts⟩ c hc
    obtain ⟨part, hpart, hc⟩ := List.mem_flatten.1 hc
    obtain ⟨d, hd, rfl⟩ := hparts part hpart
    rwa [List.mem_singleton.1 hc]
  · intro h
    refine ⟨cs.map fun c => [c], (List.flatMap_singleton' cs).symm, fun part hpart => ?_⟩
    obtain ⟨c, hc, rfl⟩ := List.mem_map.1 hpart
    exact ⟨c, h c hc, rfl⟩

theorem isLetter_iff {c : Char} : IsLetter c ↔ Scan.isWordStart c = true := by
  delta Scan.isWordStart Char.isAlpha Char.isUpper Char.isLower
  simp only [IsLetter, Char.le_def, Bool.or_eq_true, Bool.and_eq_true, decide_eq_true_eq,
    beq_iff_eq]
  tauto

theorem isDigit_iff {c : Char} : IsDigit c ↔ c.isDigit = true := by
  simp only [IsDigit, Char.isDigit, Char.le_def, Bool.and_eq_true, decide_eq_true_eq]

theorem isWordPart_iff {c : Char} : IsLetter c ∨ IsDigit c ↔ Scan.isWordPart c = true := by
  simp only [isLetter_iff, isDigit_iff, Scan.isWordStart, Scan.isWordPart, Char.isAlphanum,
    Bool.or_eq_true]
  tauto

theorem mem_word_iff : cs ∈ Rule.word.language ↔ ∃ c tail, Scan.isWordStart c = true ∧
    (∀ d ∈ tail, Scan.isWordPart d = true) ∧ cs = c :: tail := by
  simp only [language, mem_char_mul, mem_kstar_char, isWordPart_iff]
  simp only [isLetter_iff]

theorem mem_quotedName_iff : cs ∈ Rule.quotedName.language ↔
    ∃ inside, (∀ c ∈ inside, Scan.isQuotable c = true) ∧ cs = '\x60' :: (inside ++ ['\x60']) := by
  have hclass (c : Char) : c ≠ '\x60' ∧ c ≠ '\n' ↔ Scan.isQuotable c = true := by
    simp [Scan.isQuotable]
  rw [language, mul_assoc, mem_char_mul]
  simp only [Language.mem_mul, mem_kstar_char, mem_char, hclass]
  constructor
  · rintro ⟨_, _, rfl, ⟨inside, hinside, _, ⟨_, rfl, rfl⟩, rfl⟩, rfl⟩
    exact ⟨inside, hinside, rfl⟩
  · rintro ⟨inside, hinside, rfl⟩
    exact ⟨_, _, rfl, ⟨inside, hinside, _, ⟨_, rfl, rfl⟩, rfl⟩, rfl⟩

theorem mem_digits_iff : cs ∈ digits ↔ cs ≠ [] ∧ ∀ c ∈ cs, c.isDigit = true := by
  simp only [digits, mem_char_mul, mem_kstar_char, isDigit_iff]
  constructor
  · rintro ⟨c, tail, hc, htail, rfl⟩
    exact ⟨by simp, List.forall_mem_cons.2 ⟨hc, htail⟩⟩
  · rintro ⟨hne, hdigits⟩
    obtain ⟨c, tail, rfl⟩ := List.exists_cons_of_ne_nil hne
    obtain ⟨hc, htail⟩ := List.forall_mem_cons.1 hdigits
    exact ⟨c, tail, hc, htail, rfl⟩

theorem mem_fraction_iff :
    cs ∈ fraction ↔ ∃ ds, (∀ c ∈ ds, c.isDigit = true) ∧ cs = pointed ds := by
  simp only [fraction, Language.mem_add, Language.mem_one, mem_char_mul, mem_digits_iff]
  constructor
  · rintro (rfl | ⟨_, ds, rfl, ⟨hne, hdigits⟩, rfl⟩)
    · exact ⟨[], by simp, rfl⟩
    · obtain ⟨d, ds, rfl⟩ := List.exists_cons_of_ne_nil hne
      exact ⟨d :: ds, hdigits, rfl⟩
  · rintro ⟨_ | ⟨d, ds⟩, hdigits, rfl⟩
    · exact .inl rfl
    · exact .inr ⟨_, d :: ds, rfl, ⟨by simp, hdigits⟩, rfl⟩

theorem mem_exponent_iff : cs ∈ exponent ↔ IsExponent cs := by
  simp only [exponent, mul_assoc, Language.mem_add, Language.mem_one, mem_char_mul, add_mul, one_mul,
    mem_digits_iff]
  constructor
  · rintro (rfl | ⟨mark, _, hmark, ⟨hne, hdigits⟩ | ⟨sign, ds, hsign, ⟨hne, hdigits⟩, rfl⟩, rfl⟩)
    · exact .none
    · exact .unsigned hmark hne hdigits
    · exact .signed hmark hsign hne hdigits
  · rintro (_ | ⟨hmark, hne, hdigits⟩ | ⟨hmark, hsign, hne, hdigits⟩)
    · exact .inl rfl
    · exact .inr ⟨_, _, hmark, .inl ⟨hne, hdigits⟩, rfl⟩
    · exact .inr ⟨_, _, hmark, .inr ⟨_, _, hsign, ⟨hne, hdigits⟩, rfl⟩, rfl⟩

theorem mem_number_iff : cs ∈ Rule.number.language ↔ ∃ n : Numeral, n.text = cs := by
  rw [language, mul_assoc, Language.mem_mul]
  simp only [Language.mem_mul, mem_digits_iff, mem_fraction_iff, mem_exponent_iff]
  constructor
  · rintro ⟨whole, ⟨hne, hwhole⟩, _, ⟨_, ⟨ds, hds, rfl⟩, e, he, rfl⟩, rfl⟩
    exact ⟨⟨whole, ds, e, hne, hwhole, hds, he⟩, rfl⟩
  · rintro ⟨n, rfl⟩
    exact ⟨n.whole, ⟨n.whole_ne_nil, n.whole_digits⟩, _,
      ⟨_, ⟨n.fraction, n.fraction_digits, rfl⟩, n.exponent, n.exponent_form, rfl⟩, rfl⟩

theorem mem_mark_iff {kind : Kind} :
    cs ∈ (Rule.mark kind).language ↔ kind.mark? = some cs := Iff.rfl

end

end Rule

/-! ## The longest numeral -/

theorem length_le_takeWhile_append {p : Char → Bool} {cs : List Char} (h : ∀ c ∈ cs, p c = true)
    (rest : List Char) : cs.length ≤ ((cs ++ rest).takeWhile p).length := by
  rw [List.takeWhile_append_of_pos h, List.length_append]
  exact Nat.le_add_right _ _

namespace Scan

theorem length_le_fraction {digits : List Char} (hdigits : ∀ c ∈ digits, c.isDigit = true)
    (rest : List Char) : (pointed digits).length ≤ (fraction (pointed digits ++ rest)).length := by
  cases digits with
  | nil => exact Nat.zero_le _
  | cons d ds =>
    have htake := length_le_takeWhile_append hdigits rest
    have hne : (d :: ds ++ rest).takeWhile Char.isDigit ≠ [] := by
      rw [← List.length_pos_iff]
      exact Nat.lt_of_lt_of_le (by simp) htake
    simp only [pointed, List.cons_append, fraction]
    split
    next hnil => exact absurd hnil hne
    next => simpa using htake

/-- Before anything that can neither begin nor go on with it, a fraction is taken as it is. -/
theorem fraction_append_of_breaks {digits rest : List Char}
    (hdigits : ∀ c ∈ digits, c.isDigit = true)
    (hrest : Breaks (fun c => c.isDigit || c == '.') rest) :
    fraction (pointed digits ++ rest) = pointed digits := by
  cases digits with
  | nil =>
    simp only [pointed, List.nil_append]
    unfold fraction
    split
    next => simp at hrest
    next => rfl
  | cons d ds =>
    have htake := takeWhile_append_of_breaks hdigits (hrest.mono (q := Char.isDigit)
      fun c hc => by simp [hc])
    simp only [pointed, List.cons_append, fraction] at htake ⊢
    rw [htake]

theorem length_le_exponent {cs : List Char} (h : IsExponent cs) (rest : List Char) :
    cs.length ≤ (exponent (cs ++ rest)).length := by
  cases h with
  | none => exact Nat.zero_le _
  | @unsigned mark digits hmark hne hdigits =>
    have hmark' : (mark == 'e' || mark == 'E') = true := by simpa using hmark
    obtain ⟨d, ds, rfl⟩ := List.exists_cons_of_ne_nil hne
    have hsign : (d == '+' || d == '-') = false := by
      by_contra hsign
      simp only [Bool.not_eq_false, Bool.or_eq_true, beq_iff_eq] at hsign
      have hd := hdigits d (by simp)
      rcases hsign with rfl | rfl <;> exact absurd hd (by decide)
    have htake := length_le_takeWhile_append hdigits rest
    have htaken : exponentDigits (d :: ds ++ rest) =
        (d :: ds ++ rest).takeWhile Char.isDigit := by
      simp [exponentDigits, hsign]
    simp only [List.cons_append, exponent, hmark', if_true] at htake htaken ⊢
    rw [htaken]
    split
    next hnil => simp [hnil] at htake
    next => simpa using htake
  | @signed mark sign digits hmark hsign hne hdigits =>
    have hmark' : (mark == 'e' || mark == 'E') = true := by simpa using hmark
    have hsign' : (sign == '+' || sign == '-') = true := by simpa using hsign
    have htake := length_le_takeWhile_append hdigits rest
    have hne' : (digits ++ rest).takeWhile Char.isDigit ≠ [] := by
      rw [← List.length_pos_iff]
      exact Nat.lt_of_lt_of_le (List.length_pos_iff.2 hne) htake
    obtain ⟨d, ds, hcons⟩ := List.exists_cons_of_ne_nil hne'
    rw [hcons] at htake
    simp only [List.cons_append, exponent, exponentDigits, hmark', hsign', if_true, hcons]
    simpa using htake

end Scan

theorem IsExponent.breaks_append {cs : List Char} (h : IsExponent cs) (hne : cs ≠ [])
    (rest : List Char) : Breaks (fun c => c.isDigit || c == '.') (cs ++ rest) := by
  cases h with
  | none => exact absurd rfl hne
  | unsigned hmark | signed hmark => rcases hmark with rfl | rfl <;> simp

/-- No numeral at the head of a text is longer than the one that the scanner takes there. -/
theorem Numeral.length_le_numberTail (n : Numeral) {c : Char} {cs rest : List Char}
    (h : n.text ++ rest = c :: cs) : n.text.length ≤ (Scan.numberTail cs).length + 1 := by
  obtain ⟨d, ds, hwhole⟩ := List.exists_cons_of_ne_nil n.whole_ne_nil
  have hds : ∀ c ∈ ds, c.isDigit = true := fun c hc => n.whole_digits c (by simp [hwhole, hc])
  have hcs : cs = ds ++ (pointed n.fraction ++ (n.exponent ++ rest)) := by
    rw [text, hwhole] at h
    simpa using (List.cons.inj h).2.symm
  have hlength : n.text.length =
      ds.length + (pointed n.fraction).length + n.exponent.length + 1 := by
    simp only [text, hwhole, List.length_append, List.length_cons]
    omega
  have hdigits := length_le_takeWhile_append hds (pointed n.fraction ++ (n.exponent ++ rest))
  rw [← hcs] at hdigits
  simp only [Scan.numberTail, List.length_append]
  -- Behind a fraction or an exponent no further digit belongs to the part before it.
  by_cases hexponent : n.exponent = []
  · cases hfraction : n.fraction with
    | nil =>
      rw [hexponent, hfraction] at hlength
      simp only [pointed, List.length_nil] at hlength
      omega
    | cons e es =>
      have hbreaks : Breaks Char.isDigit (pointed n.fraction ++ (n.exponent ++ rest)) := by
        simp [hfraction, pointed]
      have hle := Scan.length_le_fraction n.fraction_digits (n.exponent ++ rest)
      rw [hexponent] at hlength
      simp only [hcs, dropWhile_append_of_breaks hds hbreaks, takeWhile_append_of_breaks hds hbreaks,
        hlength, List.length_nil]
      omega
  · have hstop := n.exponent_form.breaks_append hexponent rest
    have hbreaks : Breaks Char.isDigit (pointed n.fraction ++ (n.exponent ++ rest)) :=
      breaks_pointed (hstop.mono fun c hc => by simp [hc])
    have hle := Scan.length_le_exponent n.exponent_form rest
    simp only [hcs, dropWhile_append_of_breaks hds hbreaks, takeWhile_append_of_breaks hds hbreaks,
      Scan.fraction_append_of_breaks n.fraction_digits hstop, List.drop_left, hlength]
    omega

/-! ## Marks -/

namespace Scan

theorem mark?_of_symbol? {c : Char} {cs : List Char} {kind : Kind} {more : Nat}
    (h : symbol? c cs = some (kind, more)) :
    kind.mark? = some (c :: cs.take more) ∧ more ≤ cs.length := by
  unfold symbol? at h
  split at h <;> cases h <;> exact ⟨rfl, by simp⟩

/-- Where a mark stands, the scanner takes that mark or a longer one. -/
theorem exists_symbol?_of_mark? {kind : Kind} {text : List Char} (h : kind.mark? = some text) :
    ∃ c tail, text = c :: tail ∧ symbol? c tail = some (kind, tail.length) ∧
      ∀ rest, ∃ kind' more, symbol? c (tail ++ rest) = some (kind', more) ∧ tail.length ≤ more := by
  unfold Kind.mark? at h
  split at h <;> cases h <;> refine ⟨_, _, rfl, rfl, fun rest => ?_⟩
  all_goals
    unfold symbol?
    split <;> simp_all

end Scan

/-! ## Keywords -/

/-- Texts that differ in the case of ASCII letters only. -/
def Text.EqUpToCase (cs ds : List Char) : Prop := cs.map Char.toLower = ds.map Char.toLower

instance (cs ds : List Char) : Decidable (EqUpToCase cs ds) :=
  inferInstanceAs (Decidable (cs.map Char.toLower = ds.map Char.toLower))

theorem Keyword.eq_of_spelling {keyword keyword' : Keyword}
    (h : EqUpToCase keyword.spelling.toList keyword'.spelling.toList) : keyword = keyword' := by
  revert h
  cases keyword <;> cases keyword' <;> decide

theorem Keyword.ofWord?_eq_some_iff {text : List Char} {keyword : Keyword} :
    ofWord? (String.ofList text) = some keyword ↔ EqUpToCase text keyword.spelling.toList := by
  have hmatch (k : Keyword) : (k.spelling.toLower == (String.ofList text).toLower) = true ↔
      EqUpToCase text k.spelling.toList := by
    rw [beq_iff_eq, ← String.toList_inj]
    delta String.toLower
    simp only [String.toList_map, String.toList_ofList]
    exact eq_comm
  have hfound {k : Keyword} (h : ofWord? (String.ofList text) = some k) :
      EqUpToCase text k.spelling.toList := by
    unfold ofWord? at h
    exact (hmatch k).1 (List.find?_some h :)
  refine ⟨hfound, fun h => ?_⟩
  have hmem : keyword ∈ all := by cases keyword <;> decide
  have hsome : (ofWord? (String.ofList text)).isSome = true :=
    List.find?_isSome.2 ⟨keyword, hmem, (hmatch keyword).2 h⟩
  obtain ⟨found, hfind⟩ := Option.isSome_iff_exists.1 hsome
  rw [hfind, eq_of_spelling ((hfound hfind).symm.trans h)]

namespace Scan

/-- A word is a keyword exactly where it spells it, whatever the case of its letters. -/
theorem wordKind_eq_keyword_iff {text : List Char} {keyword : Keyword} :
    wordKind text = .keyword keyword ↔ EqUpToCase text keyword.spelling.toList := by
  rw [← Keyword.ofWord?_eq_some_iff, wordKind]
  split <;> simp_all

theorem rule_wordKind (text : List Char) : (wordKind text).rule = .word := by
  unfold wordKind
  split <;> rfl

end Scan

/-! ## The longest match -/

/-- The text of a token at the head of `text ++ rest`: it is one of the rule of its kind, no rule has
a longer one there, and a word is a keyword if it spells it in any mixture of cases. -/
structure IsLongestMatch (kind : Kind) (text rest : List Char) : Prop where
  mem : text ∈ kind.rule.language
  longest : ∀ (rule : Rule), ∀ longer ∈ rule.language, longer <+: text ++ rest →
    longer.length ≤ text.length
  keyword : kind.rule = .word →
    ∀ keyword, kind = .keyword keyword ↔ EqUpToCase text keyword.spelling.toList

theorem Kind.rule_of_mark? {kind : Kind} {text : List Char} (h : kind.mark? = some text) :
    kind.rule = .mark kind := by
  cases kind <;> first | rfl | cases h

/-- A kind of token that is no word is known by its rule. -/
theorem Kind.eq_of_rule_eq {kind kind' : Kind} (h : kind.rule = kind'.rule)
    (hword : kind.rule ≠ .word) : kind = kind' := by
  let kindOf : Rule → Kind
    | .word => .name
    | .quotedName => .quotedName
    | .number => .number
    | .mark kind => kind
  have hkindOf (k : Kind) (hk : k.rule ≠ .word) : kindOf k.rule = k := by
    cases k <;> first | rfl | exact absurd rfl hk
  rw [← hkindOf kind hword, ← hkindOf kind' (h ▸ hword), h]

namespace Scan

theorem lexeme_of_isWordStart {c : Char} (hc : isWordStart c = true) (cs : List Char) :
    lexeme c cs = (some (wordKind (c :: cs.takeWhile isWordPart)),
      (cs.takeWhile isWordPart).length) := by
  simp [lexeme, hc]

theorem lexeme_of_isDigit {c : Char} (hc : c.isDigit = true) (cs : List Char) :
    lexeme c cs = (some .number, (numberTail cs).length) := by
  simp [lexeme, hc, isWordStart_eq_false_of_isDigit hc]

/-- Where a text of some rule stands, the scanner takes a token that is at least as long. -/
theorem exists_lexeme_of_mem_language {rule : Rule} {text : List Char} {c : Char} {cs : List Char}
    (h : text ∈ rule.language) (hstarts : text <+: c :: cs) : isSeparator c = false ∧
      ∃ kind more, lexeme c cs = (some kind, more) ∧ text.length ≤ more + 1 := by
  obtain ⟨rest, hrest⟩ := hstarts
  cases rule with
  | word =>
    obtain ⟨d, tail, hd, htail, rfl⟩ := Rule.mem_word_iff.1 h
    obtain ⟨rfl, rfl⟩ := List.cons.inj hrest
    refine ⟨isSeparator_eq_false rfl hd, _, _, lexeme_of_isWordStart hd _, ?_⟩
    exact Nat.succ_le_succ (length_le_takeWhile_append htail rest)
  | quotedName =>
    obtain ⟨inside, hinside, rfl⟩ := Rule.mem_quotedName_iff.1 h
    obtain ⟨rfl, rfl⟩ := List.cons.inj hrest
    exact ⟨rfl, _, _, lexeme_quotedName hinside rest, le_rfl⟩
  | number =>
    obtain ⟨n, rfl⟩ := Rule.mem_number_iff.1 h
    have hdigit : c.isDigit = true := by
      obtain ⟨d, tail, htext, hdigit⟩ := n.exists_text_eq_cons
      rw [htext] at hrest
      rwa [← (List.cons.inj hrest).1]
    exact ⟨isSeparator_eq_false rfl hdigit, _, _, lexeme_of_isDigit hdigit cs,
      n.length_le_numberTail hrest⟩
  | mark kind =>
    obtain ⟨d, tail, rfl, -, hlonger⟩ := exists_symbol?_of_mark? (Rule.mem_mark_iff.1 h)
    obtain ⟨rfl, rfl⟩ := List.cons.inj hrest
    obtain ⟨kind', more, hsymbol, hle⟩ := hlonger rest
    obtain ⟨hsep, hlexeme⟩ := lexeme_of_symbol? hsymbol
    exact ⟨hsep, kind', more, hlexeme, Nat.succ_le_succ hle⟩

/-- Alone, a text of a rule is taken as a whole, and as a token of the rule. -/
theorem exists_lexeme_self {rule : Rule} {c : Char} {tail : List Char}
    (h : c :: tail ∈ rule.language) :
    ∃ kind : Kind, kind.rule = rule ∧ lexeme c tail = (some kind, tail.length) := by
  cases rule with
  | word =>
    obtain ⟨d, _, hd, htail, hcons⟩ := Rule.mem_word_iff.1 h
    obtain ⟨rfl, rfl⟩ := List.cons.inj hcons
    have htake : tail.takeWhile isWordPart = tail := List.takeWhile_eq_self_iff.2 htail
    refine ⟨wordKind (c :: tail), rule_wordKind _, ?_⟩
    rw [lexeme_of_isWordStart hd, htake]
  | quotedName =>
    obtain ⟨inside, hinside, hcons⟩ := Rule.mem_quotedName_iff.1 h
    obtain ⟨rfl, rfl⟩ := List.cons.inj hcons
    refine ⟨.quotedName, rfl, ?_⟩
    simpa using lexeme_quotedName hinside []
  | number =>
    obtain ⟨n, htext⟩ := Rule.mem_number_iff.1 h
    refine ⟨.number, rfl, ?_⟩
    have htail : numberTail tail = tail := by
      simpa using n.numberTail_append htext Breaks.nil
    rw [lexeme_of_isDigit (n.isDigit_head htext), htail]
  | mark kind =>
    have hmark := Rule.mem_mark_iff.1 h
    obtain ⟨d, _, hcons, hsymbol, -⟩ := exists_symbol?_of_mark? hmark
    obtain ⟨rfl, rfl⟩ := List.cons.inj hcons
    exact ⟨kind, Kind.rule_of_mark? hmark, (lexeme_of_symbol? hsymbol).2⟩

end Scan

theorem Rule.ne_nil_of_mem {rule : Rule} {text : List Char} (h : text ∈ rule.language) :
    text ≠ [] := by
  cases rule with
  | word =>
    obtain ⟨c, tail, -, -, rfl⟩ := mem_word_iff.1 h
    simp
  | quotedName =>
    obtain ⟨inside, -, rfl⟩ := mem_quotedName_iff.1 h
    simp
  | number =>
    obtain ⟨n, rfl⟩ := mem_number_iff.1 h
    simp [Numeral.text, n.whole_ne_nil]
  | mark kind =>
    obtain ⟨c, tail, rfl, -⟩ := Scan.exists_symbol?_of_mark? (mem_mark_iff.1 h)
    simp

/-- A text is one of at most one rule. -/
theorem Rule.eq_of_mem {rule rule' : Rule} {text : List Char} (h : text ∈ rule.language)
    (h' : text ∈ rule'.language) : rule = rule' := by
  obtain ⟨c, tail, rfl⟩ := List.exists_cons_of_ne_nil (ne_nil_of_mem h)
  obtain ⟨kind, rfl, hlexeme⟩ := Scan.exists_lexeme_self h
  obtain ⟨kind', rfl, hlexeme'⟩ := Scan.exists_lexeme_self h'
  rw [hlexeme] at hlexeme'
  cases hlexeme'
  rfl

/-- A text is a token of at most one kind. -/
theorem IsLongestMatch.unique {kind kind' : Kind} {text rest : List Char}
    (h : IsLongestMatch kind text rest) (h' : IsLongestMatch kind' text rest) : kind = kind' := by
  have hrule := Rule.eq_of_mem h.mem h'.mem
  by_cases hword : kind.rule = .word
  · have hword' := hrule ▸ hword
    cases kind with
    | keyword k => exact ((h'.keyword hword' k).2 ((h.keyword hword k).1 rfl)).symm
    | name =>
      cases kind' with
      | keyword k => exact (h.keyword hword k).2 ((h'.keyword hword' k).1 rfl)
      | name => rfl
      | _ => cases hword'
    | _ => cases hword
  · exact Kind.eq_of_rule_eq hrule hword

namespace Scan

theorem IsLexeme.mem_language {kind : Kind} {text : List Char} (h : IsLexeme kind text) :
    text ∈ kind.rule.language := by
  cases h with
  | word hc htail =>
    rw [rule_wordKind]
    exact Rule.mem_word_iff.2 ⟨_, _, hc, htail, rfl⟩
  | numeral n => exact Rule.mem_number_iff.2 ⟨n, rfl⟩
  | quotedName hinside => exact Rule.mem_quotedName_iff.2 ⟨_, hinside, rfl⟩
  | @symbol c tail kind hsymbol =>
    have hmark : kind.mark? = some (c :: tail) := by
      simpa using (mark?_of_symbol? (hsymbol [] (by simp [EndsWord]))).1
    rw [Kind.rule_of_mark? hmark]
    exact Rule.mem_mark_iff.2 hmark

theorem IsLexeme.keyword_iff {kind : Kind} {text : List Char} (h : IsLexeme kind text)
    (hrule : kind.rule = .word) (keyword : Keyword) :
    kind = .keyword keyword ↔ EqUpToCase text keyword.spelling.toList := by
  cases h with
  | word hc htail => exact wordKind_eq_keyword_iff
  | numeral n => cases hrule
  | quotedName hinside => cases hrule
  | symbol hsymbol =>
    have hmark := (mark?_of_symbol? (hsymbol [] (by simp [EndsWord]))).1
    rw [Kind.rule_of_mark? hmark] at hrule
    cases hrule

theorem snd_lexeme_le (c : Char) (cs : List Char) : (lexeme c cs).2 ≤ cs.length := by
  unfold lexeme
  split
  next => exact (List.takeWhile_prefix _).length_le
  next =>
    split
    next => exact (numberTail_isPrefix cs).length_le
    next =>
      split
      next =>
        dsimp only
        split
        next rest hrest =>
          have hlength := congrArg List.length hrest
          simp only [List.length_drop, List.length_cons] at hlength
          omega
        next => exact (List.takeWhile_prefix _).length_le
      next =>
        split
        next hsymbol => exact (mark?_of_symbol? hsymbol).2
        next => exact Nat.zero_le _

/-- **The scanner takes exactly the longest match of the rules**, and as a token of the kind of that
rule. -/
theorem lexeme_eq_some_iff {c : Char} {tail rest : List Char} {kind : Kind} :
    lexeme c (tail ++ rest) = (some kind, tail.length) ↔ IsLongestMatch kind (c :: tail) rest := by
  constructor
  · intro h
    have hlexeme : IsLexeme kind (c :: tail) := by simpa using isLexeme_of_lexeme h
    refine ⟨hlexeme.mem_language, fun rule longer hlonger hstarts => ?_, hlexeme.keyword_iff⟩
    rw [List.cons_append] at hstarts
    obtain ⟨-, kind', more, h', hle⟩ := exists_lexeme_of_mem_language hlonger hstarts
    rw [h] at h'
    cases h'
    exact hle
  · intro h
    have hstarts : c :: tail <+: c :: (tail ++ rest) := List.prefix_append (c :: tail) rest
    obtain ⟨-, kind', more, hlexeme, hle⟩ := exists_lexeme_of_mem_language h.mem hstarts
    have hmore : more ≤ (tail ++ rest).length := by
      simpa [hlexeme] using snd_lexeme_le c (tail ++ rest)
    have htaken := isLexeme_of_lexeme hlexeme
    have hlength := h.longest _ _ htaken.mem_language
      (List.cons_prefix_cons.2 ⟨rfl, List.take_prefix _ _⟩)
    obtain rfl : more = tail.length := by
      simp only [List.length_cons, List.length_take, Nat.min_eq_left hmore] at hle hlength
      omega
    rw [List.take_left] at htaken
    have hmatch : IsLongestMatch kind' (c :: tail) rest :=
      ⟨htaken.mem_language, h.longest, htaken.keyword_iff⟩
    rw [hlexeme, h.unique hmatch]

/-- **The scanner takes no token exactly where no rule has a text.** -/
theorem lexeme_eq_none_iff {c : Char} {cs : List Char} :
    (lexeme c cs).1 = none ↔ ∀ (rule : Rule), ∀ text ∈ rule.language, ¬text <+: c :: cs := by
  constructor
  · intro h rule text htext hstarts
    obtain ⟨-, kind, more, hlexeme, -⟩ := exists_lexeme_of_mem_language htext hstarts
    rw [hlexeme] at h
    cases h
  · intro h
    cases hlexeme : lexeme c cs with
    | mk result more =>
      cases result with
      | none => rfl
      | some kind =>
        have hstarts : c :: cs.take more <+: c :: cs :=
          List.cons_prefix_cons.2 ⟨rfl, List.take_prefix more cs⟩
        exact absurd hstarts (h _ _ (isLexeme_of_lexeme hlexeme).mem_language)

end Scan

end PinQuery
