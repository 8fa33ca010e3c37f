import PinQuery.Proofs.Plan.Suggestion
import PinQuery.Proofs.Query.Literals
import PinQuery.Proofs.Query.RoundTrip
import PinQuery.Proofs.Token.Digits

/-!
# Integers as they are written

An integer is written with digits behind an optional sign. What is written is what is read, and every
integer but the least one can be written, by its canonical text.

* `IsLead`: what can stand in front of digits. What is in front of a numeral and the numeral itself
  can be told apart (`IsLead.unique`).
* `SpellsNumber.isNumberAt`: what stands under the span of a number.
* `SpellsQuery.fits`: every numeral of a query fits, also behind a minus.
* `Literal.replace_digits`: which digits can stand where digits stand.
* `integers_can_be_written`: how integers are read, and which of them can be written.
-/

namespace PinQuery

open Text

/-! ## Signs and digits -/

/-- What can stand in front of a numeral: nothing, or a sign and separators behind it. -/
inductive IsLead : List Word → Bool → List Char → Prop
  | none : IsLead [] false []
  | plus {gap : List Char} (hgap : ∀ c ∈ gap, Scan.isSeparator c = true) :
      IsLead [⟨.plus, ['+']⟩] false ('+' :: gap)
  | minus {gap : List Char} (hgap : ∀ c ∈ gap, Scan.isSeparator c = true) :
      IsLead [⟨.minus, ['-']⟩] true ('-' :: gap)

/-- A text that writes an integer: digits behind an optional sign, which may stand apart. -/
inductive WritesInteger : List Char → Int → Prop
  | unsigned {digits : List Char} (h : IsDigits digits) :
      WritesInteger digits (Nat.ofDigitChars 10 digits 0)
  | plus {gap digits : List Char} (hgap : ∀ c ∈ gap, Scan.isSeparator c = true)
      (h : IsDigits digits) :
      WritesInteger ('+' :: (gap ++ digits)) (Nat.ofDigitChars 10 digits 0)
  | minus {gap digits : List Char} (hgap : ∀ c ∈ gap, Scan.isSeparator c = true)
      (h : IsDigits digits) :
      WritesInteger ('-' :: (gap ++ digits)) (-(Nat.ofDigitChars 10 digits 0 : Int))

theorem WritesInteger.exists_lead {text : List Char} {z : Int} (h : WritesInteger text z) :
    ∃ words negative lead digits, IsLead words negative lead ∧ IsDigits digits ∧
      text = lead ++ digits ∧
      z = if negative then -(Decimal.digitsValue digits : Int) else Decimal.digitsValue digits := by
  cases h with
  | unsigned h => exact ⟨_, _, _, _, .none, h, rfl, rfl⟩
  | plus hgap h => exact ⟨_, _, _, _, .plus hgap, h, rfl, rfl⟩
  | minus hgap h => exact ⟨_, _, _, _, .minus hgap, h, rfl, rfl⟩

theorem Rule.breaks_of_mem_number {text : List Char} (h : text ∈ Rule.number.language) :
    Breaks (fun c => !c.isDigit) text := by
  obtain ⟨n, rfl⟩ := Rule.mem_number_iff.1 h
  intro c hc
  obtain ⟨tail, htext⟩ := List.head?_eq_some_iff.1 hc
  simpa using n.isDigit_head htext

theorem IsLead.not_isDigit {words : List Word} {negative : Bool} {lead : List Char}
    (h : IsLead words negative lead) : ∀ c ∈ lead, (!c.isDigit) = true := by
  have hgap {gap : List Char} (h : ∀ c ∈ gap, Scan.isSeparator c = true) :
      ∀ c ∈ gap, (!c.isDigit) = true := by
    intro c hc
    by_contra hdigit
    have hsep := Scan.isSeparator_eq_false (p := Char.isDigit) (by decide) (by simpa using hdigit)
    rw [h c hc] at hsep
    cases hsep
  cases h with
  | none => simp
  | plus h | minus h => exact List.forall_mem_cons.2 ⟨by decide, hgap h⟩

/-- **A numeral and what is in front of it can be told apart.** -/
theorem IsLead.unique {words words' : List Word} {negative negative' : Bool}
    {lead lead' text text' : List Char} (h : IsLead words negative lead)
    (h' : IsLead words' negative' lead') (htext : text ∈ Rule.number.language)
    (htext' : text' ∈ Rule.number.language) (heq : lead ++ text = lead' ++ text') :
    words = words' ∧ negative = negative' ∧ text = text' := by
  have hlead : lead = lead' := by
    rw [← takeWhile_append_of_breaks h.not_isDigit (Rule.breaks_of_mem_number htext), heq,
      takeWhile_append_of_breaks h'.not_isDigit (Rule.breaks_of_mem_number htext')]
  subst hlead
  refine ⟨?_, ?_, List.append_cancel_left heq⟩ <;> cases h <;> cases h' <;> rfl

/-! ## Digits and integers -/

/-- Digits denote the integer that they write, if it fits. -/
theorem IsDigits.denotesNumber_iff {digits : List Char} (h : IsDigits digits) {number : Number} :
    DenotesNumber digits number ↔
      ∃ value : Int64, number = .int value ∧ value.toInt = Decimal.digitsValue digits := by
  have hmark : ∀ c ∈ digits, Number.isFloatMark c = false :=
    fun c hc => Number.isFloatMark_of_isDigit (h.isDigit c hc)
  constructor
  · rintro (⟨-, hvalue⟩ | ⟨hmem, hmark', -⟩)
    · exact ⟨_, rfl, hvalue⟩
    · exact absurd hmark' (by simp [hmark _ hmem])
  · rintro ⟨value, rfl, hvalue⟩
    exact .int hmark hvalue

/-- The opposite of what is not negative is never wrapped. -/
theorem Int64.toInt_neg_of_nonneg {value : Int64} (h : 0 ≤ value.toInt) :
    (-value).toInt = -value.toInt := by
  have hhigh := value.toInt_lt
  have hvalue : value = .ofNat value.toInt.toNat := by
    rw [← Int64.toInt_inj, Int64.toInt_ofNat_of_lt (by omega)]
    omega
  have habs := Int64.toInt_neg_ofNat_of_le (n := value.toInt.toNat) (by omega)
  rw [← hvalue] at habs
  omega

/-! ## What stands under the span of a number -/

/-- A number is read from a numeral and the sign in front of it. -/
structure Literal.IsNumberAt (cs : List Char) (signs : List Token) (token : Token)
    (negative : Bool) (lead : List Char) (literal : Literal) : Prop where
  kind : token.kind = .number
  mem : token.text.toList ∈ Rule.number.language
  isLead : IsLead (signs.map Token.word) negative lead
  stop : literal.span.stop = token.span.stop
  slice : slice? literal.span cs = some (lead ++ token.text.toList)
  value : ∃ value, DenotesNumber token.text.toList value ∧
    literal.value = if negative then value.negate else value

theorem IsLongestMatch.mem_number {token : Token} {rest : List Char}
    (h : IsLongestMatch token.kind token.text.toList rest) (hkind : token.kind = .number) :
    token.text.toList ∈ Rule.number.language := by
  have hmem := h.mem
  rwa [hkind] at hmem

/-- Under the span of a signed number stand the mark of its sign, separators and its numeral. -/
theorem Laid.exists_slice_signed {cs mark : List Char} {front back : List Token}
    {sign token : Token} (h : Laid 0 cs (front ++ sign :: token :: back))
    (hmark : sign.kind.mark? = some mark) (hkind : token.kind = .number) :
    sign.text.toList = mark ∧ token.text.toList ∈ Rule.number.language ∧
    ∃ gap, (∀ c ∈ gap, Scan.isSeparator c = true) ∧
      slice? (sign.span.cover token.span) cs = some (mark ++ (gap ++ token.text.toList)) := by
  obtain ⟨before, after, rfl, hspan, hmatch, hbehind, -⟩ := h.exists_behind
  obtain ⟨gap, rest, rfl, hgap, hstop⟩ := hbehind.exists_gap
  obtain ⟨rest', hmatch'⟩ := hbehind.exists_isLongestMatch token (by simp)
  have hmem := hmatch.mem
  rw [Kind.rule_of_mark? hmark] at hmem
  obtain rfl := Option.some.inj (hmark.symm.trans (Rule.mem_mark_iff.1 hmem))
  refine ⟨rfl, hmatch'.mem_number hkind, gap, hgap, ?_⟩
  refine slice?_eq_some_iff.2 ⟨before, rest, by simp, ?_⟩
  simp [Span.cover, hstop, hspan, Nat.add_assoc]

theorem SpellsNumber.isNumberAt {cs : List Char} {front part back : List Token} {literal : Literal}
    (h : SpellsNumber part literal) (hlaid : Laid 0 cs (front ++ (part ++ back))) :
    ∃ signs token negative lead, part = signs ++ [token] ∧
      literal.IsNumberAt cs signs token negative lead := by
  cases h with
  | @unsigned token value hkind hvalue =>
    obtain ⟨before, after, hcs, hspan, hmatch, -⟩ := hlaid.exists_behind
    refine ⟨[], token, false, [], rfl, hkind, hmatch.mem_number hkind, .none, rfl, ?_, value, hvalue,
      rfl⟩
    exact slice?_eq_some_iff.2 ⟨before, after, hcs, by simpa using hspan⟩
  | @plus sign token value hsign hkind hvalue =>
    have hmark : sign.kind.mark? = some ['+'] := by rw [hsign, Kind.mark?]
    obtain ⟨htext, hnumber, gap, hgap, hslice⟩ := hlaid.exists_slice_signed hmark hkind
    refine ⟨[sign], token, false, '+' :: gap, rfl, hkind, hnumber, ?_, rfl, hslice, value, hvalue, rfl⟩
    simpa [Token.word, hsign, htext] using IsLead.plus hgap
  | @minus sign token value hsign hkind hvalue =>
    have hmark : sign.kind.mark? = some ['-'] := by rw [hsign, Kind.mark?]
    obtain ⟨htext, hnumber, gap, hgap, hslice⟩ := hlaid.exists_slice_signed hmark hkind
    refine ⟨[sign], token, true, '-' :: gap, rfl, hkind, hnumber, ?_, rfl, hslice, value, hvalue, rfl⟩
    simpa [Token.word, hsign, htext] using IsLead.minus hgap

/-- **The integer that is written is the one that is read.** -/
theorem Literal.IsNumberAt.toInt_eq {cs lead text : List Char} {signs : List Token} {token : Token}
    {negative : Bool} {literal : Literal} {z : Int}
    (h : literal.IsNumberAt cs signs token negative lead) (hslice : slice? literal.span cs = some text)
    (hwrites : WritesInteger text z) :
    ∃ value : Int64, literal.value = .int value ∧ value.toInt = z := by
  obtain ⟨words, negative', lead', digits, hlead, hdigits, rfl, rfl⟩ := hwrites.exists_lead
  have heq := Option.some.inj (h.slice.symm.trans hslice)
  obtain ⟨-, rfl, rfl⟩ := h.isLead.unique hlead h.mem hdigits.mem_number heq
  obtain ⟨number, hnumber, hliteral⟩ := h.value
  obtain ⟨value, rfl, hvalue⟩ := hdigits.denotesNumber_iff.1 hnumber
  cases negative with
  | false => exact ⟨value, hliteral, hvalue⟩
  | true =>
    refine ⟨-value, hliteral, ?_⟩
    rw [Int64.toInt_neg_of_nonneg (by omega), hvalue]
    rfl

/-! ## Every numeral of a query fits -/

/-- A numeral among the tokens denotes a number. -/
def Token.Fits (token : Token) : Prop :=
  token.kind = .number → ∃ value, DenotesNumber token.text.toList value

theorem Token.fits_of_kind {token : Token} {kind : Kind} (h : token.kind = kind)
    (hkind : kind ≠ .number) : token.Fits := fun hnumber => absurd (h.symm.trans hnumber) hkind

theorem Token.fits_of_name? {token : Token} {name : Name} (h : token.name? = some name) :
    token.Fits := by
  unfold Token.name? at h
  split at h
  next hkind => exact fits_of_kind hkind (by decide)
  next hkind => exact fits_of_kind hkind (by decide)
  next => cases h

section

variable {tokens : List Token}

theorem SpellsNumber.fits {literal : Literal} (h : SpellsNumber tokens literal) :
    ∀ token ∈ tokens, token.Fits := by
  cases h with
  | unsigned _ hvalue => exact List.forall_mem_singleton.2 fun _ => ⟨_, hvalue⟩
  | plus hsign _ hvalue | minus hsign _ hvalue =>
    simpa using ⟨Token.fits_of_kind hsign (by decide), fun _ => ⟨_, hvalue⟩⟩

theorem SpellsOperand.fits {e : Expr} (h : SpellsOperand tokens e) :
    ∀ token ∈ tokens, token.Fits := by
  cases h with
  | name hname => simpa using Token.fits_of_name? hname
  | number h => exact h.fits

theorem Spells.fits {level : Level} {e : Expr} (h : Spells level tokens e) :
    ∀ token ∈ tokens, token.Fits := by
  induction h with
  | conjunction _ ih | factor _ ih => exact ih
  | or _ hkind _ ihleft ihright | and _ hkind _ ihleft ihright =>
    have htoken := Token.fits_of_kind hkind (by decide)
    exact List.forall_mem_append.2 ⟨ihleft, List.forall_mem_cons.2 ⟨htoken, ihright⟩⟩
  | not hkind _ ih => exact List.forall_mem_cons.2 ⟨Token.fits_of_kind hkind (by decide), ih⟩
  | paren hopening _ hclosing ih =>
    have hlast := Token.fits_of_kind hclosing (by decide)
    refine List.forall_mem_cons.2 ⟨Token.fits_of_kind hopening (by decide), ?_⟩
    exact List.forall_mem_append.2 ⟨ih, by simpa using hlast⟩
  | comparison hleft hop hright =>
    have htoken := Token.fits_of_kind rfl fun hnumber => by
      rw [hnumber] at hop
      cases hop
    exact List.forall_mem_append.2 ⟨hleft.fits, List.forall_mem_cons.2 ⟨htoken, hright.fits⟩⟩

theorem SpellsColumns.fits {names : List Name} (h : SpellsColumns tokens names) :
    ∀ token ∈ tokens, token.Fits := by
  induction h with
  | one hname => simpa using Token.fits_of_name? hname
  | more _ hcomma hname ih =>
    have hlast := Token.fits_of_name? hname
    refine List.forall_mem_append.2 ⟨ih, ?_⟩
    simpa using ⟨Token.fits_of_kind hcomma (by decide), hlast⟩

theorem SpellsCondition.fits {condition : Option Expr} (h : SpellsCondition tokens condition) :
    ∀ token ∈ tokens, token.Fits := by
  cases h with
  | absent => simp
  | present hkind h =>
    exact List.forall_mem_cons.2 ⟨Token.fits_of_kind hkind (by decide), h.fits⟩

theorem SpellsSetting.fits {keyword : Keyword} {setting : Option Literal}
    (h : SpellsSetting keyword tokens setting) : ∀ token ∈ tokens, token.Fits := by
  cases h with
  | absent => simp
  | present hkind h =>
    exact List.forall_mem_cons.2 ⟨Token.fits_of_kind hkind (by simp), h.fits⟩

/-- **Every numeral of a query fits.** -/
theorem SpellsQuery.fits {query : Query} (h : SpellsQuery tokens query) :
    ∀ token ∈ tokens, token.Fits := by
  obtain ⟨hdraft, hsemicolon, hfinal⟩ := h
  have hlast := Token.fits_of_kind hfinal (by decide)
  refine List.forall_mem_append.2 ⟨List.forall_mem_append.2 ⟨?_, ?_⟩, by simpa using hlast⟩
  · cases hdraft with
    | clauses hselect hcolumns hfrom htarget hcondition hsleep hspeed =>
      simp only [List.forall_mem_cons, List.forall_mem_append]
      exact ⟨Token.fits_of_kind hselect (by decide), hcolumns.fits,
        Token.fits_of_kind hfrom (by decide), Token.fits_of_name? htarget, hcondition.fits,
        hsleep.fits, hspeed.fits⟩
  · cases hsemicolon with
    | absent => simp
    | present hkind => simpa using Token.fits_of_kind hkind (by decide)

end

/-! ## Other integers in a source -/

/-- The tokens of digits, and of a minus in front of them, wherever they stand. -/
def numberTokens (negative : Bool) (digits : List Char) : List Token :=
  (if negative then [⟨.minus, "-", .empty 0⟩] else []) ++
    [⟨.number, String.ofList digits, .empty 0⟩]

theorem spellsNumber_numberTokens {digits : List Char} (h : IsDigits digits) (negative : Bool)
    {value : Int64} (hvalue : value.toInt = Decimal.digitsValue digits) :
    ∃ literal, SpellsNumber (numberTokens negative digits) literal ∧
      literal.value = .int (if negative then -value else value) := by
  have hnumber : DenotesNumber (String.ofList digits).toList (.int value) := by
    rw [String.toList_ofList]
    exact h.denotesNumber_iff.2 ⟨value, rfl, hvalue⟩
  cases negative with
  | false => exact ⟨_, .unsigned rfl hnumber, rfl⟩
  | true => exact ⟨_, .minus rfl rfl hnumber, rfl⟩

theorem signed_eq_append (negative : Bool) (digits : List Char) :
    signed negative digits = signed negative [] ++ digits := by
  cases negative <;> rfl

theorem isLead_signed (negative : Bool) :
    IsLead (if negative then [⟨.minus, ['-']⟩] else []) negative (signed negative []) := by
  cases negative with
  | false => exact .none
  | true => exact .minus (by simp)

/-- Where digits stand, digits and also a minus can stand, and where a minus is in front of them, it
can stay there. -/
theorem SpellsNumber.isCut_replaceAt {source : String} {front part back : List Token}
    {literal : Literal} {negative negative' : Bool} {digits digits' : List Char}
    (h : SpellsNumber part literal) (hlaid : Laid 0 source.toList (front ++ (part ++ back)))
    (hslice : slice? literal.span source.toList = some (signed negative digits))
    (hdigits : IsDigits digits) (hdigits' : IsDigits digits')
    (hnegative : negative = true → negative' = true) :
    IsCut (replaceAt source literal.span (String.ofList (signed negative' digits'))).toList
      ((front ++ (numberTokens negative' digits' ++ back)).map Token.word) := by
  obtain ⟨before, after, hsource, hspan⟩ := slice?_eq_some_iff.1 hslice
  rw [hspan, toList_replaceAt hsource, String.toList_ofList]
  obtain ⟨signs, token, negative'', lead, rfl, hnumber⟩ := h.isNumberAt hlaid
  have heq := Option.some.inj (hnumber.slice.symm.trans hslice)
  rw [signed_eq_append] at heq
  obtain ⟨hsigns, -, rfl⟩ :=
    hnumber.isLead.unique (isLead_signed negative) hnumber.mem hdigits.mem_number heq
  rw [List.append_assoc, List.singleton_append, ← List.append_assoc] at hlaid
  obtain ⟨behind, rest, hcs, htoken, hreplace⟩ := hlaid.exists_digits hnumber.kind hdigits
  -- The sign is the end of what stands in front of the digits.
  have hcut : behind ++ (token.text.toList ++ rest) =
      (before ++ signed negative []) ++ (token.text.toList ++ after) := by
    rw [← hcs, hsource, signed_eq_append, List.append_assoc, List.append_assoc]
  have hstop := hnumber.stop
  rw [hspan, htoken, signed_eq_append] at hstop
  simp only [byteLength_append] at hstop
  obtain ⟨rfl, hrest⟩ := append_cancel_of_byteLength hcut (by rw [byteLength_append]; omega)
  obtain rfl := List.append_cancel_left hrest
  obtain ⟨hdigitsCut, hminusCut⟩ := hreplace digits' hdigits'
  cases negative with
  | true =>
    obtain rfl := hnegative rfl
    simpa [hsigns, signed, numberTokens, Token.word] using hdigitsCut
  | false =>
    cases negative' with
    | true => simpa [hsigns, signed, numberTokens, Token.word] using hminusCut
    | false => simpa [hsigns, signed, numberTokens, Token.word] using hdigitsCut

/-- **Digits can stand where digits stand exactly if they fit**, also behind a minus. -/
theorem Literal.replace_digits {source : String} {query : Query} {literal : Literal}
    {negative negative' : Bool} {digits digits' : List Char} (h : Query.parse source = .ok query)
    (hmem : literal ∈ query.literals)
    (hslice : slice? literal.span source.toList = some (signed negative digits))
    (hdigits : IsDigits digits) (hdigits' : IsDigits digits')
    (hnegative : negative = true → negative' = true) :
    (∀ value : Int64, value.toInt = Decimal.digitsValue digits' → ∃ query',
      Query.parse (replaceAt source literal.span (String.ofList (signed negative' digits'))) =
        .ok query' ∧
      query.Becomes literal.span (.int (if negative' then -value else value)) query') ∧
    ∀ query', Query.parse (replaceAt source literal.span
        (String.ofList (signed negative' digits'))) = .ok query' →
      ∃ value : Int64, value.toInt = Decimal.digitsValue digits' := by
  obtain ⟨front, part, back, htokens, hpart, hother⟩ := exists_place_of_literal h hmem
  have hlaid := laid_of_faultsOf (parse_eq_ok_iff.1 h).1
  rw [htokens] at hlaid
  have hcut := hpart.isCut_replaceAt hlaid hslice hdigits hdigits' hnegative
  constructor
  · intro value hvalue
    obtain ⟨literal', hspells, hliteral⟩ := spellsNumber_numberTokens hdigits' negative' hvalue
    obtain ⟨query', hparse, hbecomes⟩ := hother _ _ _ hspells hcut
    rw [hliteral] at hbecomes
    exact ⟨query', hparse, hbecomes⟩
  · intro query' hparse
    have hmem : (⟨.number, digits'⟩ : Word) ∈ (tokensOf (replaceAt source literal.span
        (String.ofList (signed negative' digits')))).map Token.word := by
      rw [hcut.tokensOf.1]
      simp [numberTokens, Token.word]
    obtain ⟨token, htoken, hword⟩ := List.mem_map.1 hmem
    obtain ⟨hkind, htext⟩ := Word.mk.inj hword
    have hscan : token ∈ scan (replaceAt source literal.span
        (String.ofList (signed negative' digits'))) := List.mem_append_left _ htoken
    obtain ⟨number, hnumber⟩ := (parse_eq_ok_iff.1 hparse).2.fits token hscan hkind
    rw [htext] at hnumber
    obtain ⟨value, -, hvalue⟩ := hdigits'.denotesNumber_iff.1 hnumber
    exact ⟨value, hvalue⟩

/-! ## The integers that can be written -/

/-- Where the text of an integer can stand: in the place of digits, and if it has a sign, also in the
place of digits behind a minus. -/
inductive HasPlaceFor (n : Int64) : List Char → Prop
  | digits {text : List Char} (h : IsDigits text) : HasPlaceFor n text
  | minus {digits : List Char} (hneg : n.toInt < 0) (h : IsDigits digits) :
      HasPlaceFor n ('-' :: digits)

theorem HasPlaceFor.exists_digits {n : Int64} {text : List Char} (h : HasPlaceFor n text) :
    ∃ negative digits, IsDigits digits ∧ text = signed negative digits ∧
      (negative = true → decide (n.toInt < 0) = true) := by
  cases h with
  | digits h => exact ⟨false, text, h, rfl, nofun⟩
  | minus hneg h => exact ⟨true, _, h, rfl, fun _ => decide_eq_true hneg⟩

theorem isDigits_natAbs (n : Int64) : IsDigits (Numeral.ofNat n.toInt.natAbs).text := by
  rw [Numeral.text_ofNat]
  exact ⟨Nat.toDigits_ne_nil, fun c => Nat.isDigit_of_mem_toDigits (by decide) (by decide)⟩

theorem Number.text_int_eq_ofList (n : Int64) : (Number.int n).text =
    String.ofList (signed (n.toInt < 0) (Numeral.ofNat n.toInt.natAbs).text) := by
  rw [← text_int, String.ofList_toList]

/-- **Integers can be written.** Under the span of each number of a query stands a text of the source.
If digits behind an optional sign stand there, they write the integer that is read. And where digits
stand, also behind a minus, the canonical text of every integer but the least one can stand: the
source is then read as the same query, with this integer in this place. The least integer alone is
refused there. -/
theorem integers_can_be_written {source : String} {query : Query}
    (h : Query.parse source = .ok query) :
    ∀ literal ∈ query.literals, ∃ text, slice? literal.span source.toList = some text ∧
      (∀ z, WritesInteger text z → ∃ value : Int64, literal.value = .int value ∧ value.toInt = z) ∧
      ∀ n : Int64, HasPlaceFor n text →
        (n ≠ Int64.minValue → ∃ query',
          Query.parse (replaceAt source literal.span (Number.int n).text) = .ok query' ∧
          query.Becomes literal.span (.int n) query') ∧
        (n = Int64.minValue → ∀ query',
          Query.parse (replaceAt source literal.span (Number.int n).text) ≠ .ok query') := by
  intro literal hmem
  obtain ⟨front, part, back, htokens, hpart, -⟩ := exists_place_of_literal h hmem
  have hlaid := laid_of_faultsOf (parse_eq_ok_iff.1 h).1
  rw [htokens] at hlaid
  obtain ⟨signs, token, negative, lead, -, hnumber⟩ := hpart.isNumberAt hlaid
  refine ⟨_, hnumber.slice, fun z hwrites => hnumber.toInt_eq hnumber.slice hwrites, ?_⟩
  intro n hplace
  obtain ⟨negative', digits, hdigits, htext, hsign⟩ := hplace.exists_digits
  have hslice := hnumber.slice
  rw [htext] at hslice
  obtain ⟨hread, hfits⟩ :=
    Literal.replace_digits h hmem hslice hdigits (isDigits_natAbs n) hsign
  rw [← Number.text_int_eq_ofList] at hread hfits
  refine ⟨fun hn => ?_, fun hn query' hparse => ?_⟩
  · obtain ⟨hdenotes, hint⟩ := Number.denotesNumber_natAbs hn
    obtain ⟨value, hvalue, htoInt⟩ := (isDigits_natAbs n).denotesNumber_iff.1 hdenotes
    obtain ⟨query', hparse, hbecomes⟩ := hread value htoInt
    refine ⟨query', hparse, ?_⟩
    rw [hint, hvalue]
    by_cases hneg : n.toInt < 0
    · simpa [hneg, Number.negate] using hbecomes
    · simpa [hneg] using hbecomes
  · obtain ⟨value, hvalue⟩ := hfits query' hparse
    rw [Numeral.digitsValue_ofNat, hn] at hvalue
    have hleast : Int64.minValue.toInt.natAbs = 9223372036854775808 := rfl
    have hhigh := value.toInt_lt
    omega

/-- A source in which one number has leading zeros and another a minus glued to its keyword. -/
def paddedSource : String := "SELECT din1 FROM board WHERE din1>007 RSLEEP-5"

/-- The query of the source. -/
def paddedQuery : Query :=
  ⟨[⟨"din1", false, ⟨7, 11⟩⟩], ⟨"board", ⟨17, 22⟩⟩,
    some (.comparison .greater (.column ⟨"din1", false, ⟨29, 33⟩⟩) (.literal ⟨.int 7, ⟨34, 37⟩⟩)
      ⟨29, 37⟩), some ⟨.int (-5), ⟨44, 46⟩⟩, none, ⟨0, 46⟩⟩

/-- The leading zeros do not count, and the least integer but one can stand for both numbers. -/
theorem integers_can_be_written_paddedSource :
    Query.parse paddedSource = .ok paddedQuery ∧ WritesInteger "007".toList 7 ∧
    (∃ value : Int64, Number.int 7 = .int value ∧ value.toInt = 7) ∧
    ∀ span ∈ [⟨34, 37⟩, ⟨44, 46⟩], ∃ query',
      Query.parse (replaceAt paddedSource span "-9223372036854775807") = .ok query' ∧
      paddedQuery.Becomes span (.int (-9223372036854775807)) query' := by
  have hparse : Query.parse paddedSource = .ok paddedQuery := by decide +kernel
  have hwrites : WritesInteger "007".toList 7 := .unsigned (by decide)
  have hpadded : slice? ⟨34, 37⟩ paddedSource.toList = some "007".toList := by decide +kernel
  have hglued : slice? ⟨44, 46⟩ paddedSource.toList = some "-5".toList := by decide +kernel
  obtain ⟨text, hslice, hread, hplace⟩ := integers_can_be_written hparse ⟨.int 7, ⟨34, 37⟩⟩
    (by simp [Query.literals, Expr.literals, paddedQuery])
  obtain rfl := Option.some.inj (hpadded.symm.trans hslice)
  obtain ⟨text', hslice', -, hplace'⟩ := integers_can_be_written hparse ⟨.int (-5), ⟨44, 46⟩⟩
    (by simp [Query.literals, paddedQuery])
  obtain rfl := Option.some.inj (hglued.symm.trans hslice')
  refine ⟨hparse, hwrites, hread 7 hwrites, ?_⟩
  simp only [List.forall_mem_cons, List.not_mem_nil, false_implies, implies_true, and_true]
  constructor
  · exact (hplace (-9223372036854775807) (.digits (by decide))).1 (by decide)
  · exact (hplace' (-9223372036854775807) (.minus (by decide) (by decide))).1 (by decide)

/-- The least integer has a text, but this text is refused: the digits behind the minus do not fit. -/
theorem least_integer_is_refused :
    (Number.int Int64.minValue).text = "-9223372036854775808" ∧
    Query.parse ("SELECT din1 FROM board RSLEEP " ++ (Number.int Int64.minValue).text) =
      .error ⟨.invalidNumber, ⟨31, 50⟩⟩ := by
  decide +kernel

end PinQuery
