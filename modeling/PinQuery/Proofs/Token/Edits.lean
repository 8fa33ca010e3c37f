import PinQuery.Proofs.Token.Longest
import PinQuery.Query.Canonical

/-!
# Edits that keep the tokens of a source

Where a token ends depends on what follows it, so an edit at one place may change what is read at
another. This module has the edits that do not: other separators between tokens, other cases of the
letters in keywords, and another name between backticks.

* `Rule.mem_of_eqUpToCase`: no rule looks at the case of letters; `Rule.unbroken`: no text of a
  rule goes over a separator or a backtick, quoted names apart.
* `Scan.Tracks rest rest'`: up to the case of letters, `rest'` goes on as `rest` does, until it ends
  or breaks off at a separator or a backtick. A longest match before `rest` is then one before
  `rest'` (`IsLongestMatch.track`).
* `Laid offset cs tokens`: the text `cs` is made of tokens and separators. This is what scanning says
  of a source without faults (`laid_of_faultsOf`).
* `Relaid tokens cs cs'`: the edits of separators and of keywords, and `Relaid.exists_isCut` what
  they keep. `Laid.quote` is the edit of one name.
-/

namespace PinQuery

open Text
open scoped Computability

/-! ## The rules and the case of letters -/

/-- The capital letters. -/
def Text.capitals : List Char := (List.range 26).map fun i => Char.ofNat ('A'.toNat + i)

/-- A class of characters that does not tell capital letters from small ones. -/
theorem Text.apply_toLower {p : Char → Bool} (hp : capitals.all fun c => p c.toLower == p c)
    (c : Char) : p c.toLower = p c := by
  by_cases hc : c ∈ capitals
  · simpa using List.all_eq_true.1 hp c hc
  · have hupper : ¬(c.val ≥ 'A'.val ∧ c.val ≤ 'Z'.val) := by
      rintro ⟨hlow, hhigh⟩
      have hlow : 65 ≤ c.toNat := UInt32.le_iff_toNat_le.1 hlow
      have hhigh : c.toNat ≤ 90 := UInt32.le_iff_toNat_le.1 hhigh
      refine hc (List.mem_map.2 ⟨c.toNat - 65, List.mem_range.2 (by omega), ?_⟩)
      have hcode : 'A'.toNat + (c.toNat - 65) = c.toNat := by
        change 65 + (c.toNat - 65) = c.toNat
        omega
      rw [hcode, Char.ofNat_toNat]
    delta Char.toLower
    rw [dif_neg hupper]

theorem Text.EqUpToCase.length_eq {cs ds : List Char} (h : EqUpToCase cs ds) :
    cs.length = ds.length := by
  simpa using congrArg List.length h

namespace Rule

/-- A class of characters in which the case of letters does not matter. -/
def CaselessClass (p : Char → Prop) : Prop := ∀ c, p c.toLower ↔ p c

/-- A class that a Boolean test decides, and whose test does not tell capital letters from small
ones. -/
theorem CaselessClass.of_test {p : Char → Prop} (test : Char → Bool) (hp : ∀ c, p c ↔ test c = true)
    (htest : capitals.all fun c => test c.toLower == test c) : CaselessClass p := by
  intro c
  rw [hp, hp, apply_toLower htest]

/-- A language in which the case of letters does not matter. -/
def Caseless (l : Language Char) : Prop := ∀ cs, cs.map Char.toLower ∈ l ↔ cs ∈ l

namespace Caseless

variable {l m : Language Char} {p : Char → Prop}

theorem one : Caseless 1 := by simp [Caseless, Language.mem_one]

theorem char (hp : CaselessClass p) : Caseless (char p) := by
  intro cs
  simp only [mem_char, List.map_eq_singleton_iff]
  constructor
  · rintro ⟨_, hc, c, rfl, rfl⟩
    exact ⟨c, (hp c).1 hc, rfl⟩
  · rintro ⟨c, hc, rfl⟩
    exact ⟨_, (hp c).2 hc, c, rfl, rfl⟩

theorem kstar_char (hp : CaselessClass p) : Caseless (Rule.char p)∗ := by
  intro cs
  simp only [mem_kstar_char, List.forall_mem_map]
  exact forall₂_congr fun c _ => hp c

theorem add (hl : Caseless l) (hm : Caseless m) : Caseless (l + m) := by
  intro cs
  rw [Language.mem_add, Language.mem_add, hl, hm]

theorem mul (hl : Caseless l) (hm : Caseless m) : Caseless (l * m) := by
  intro cs
  simp only [Language.mem_mul]
  constructor
  · rintro ⟨left, hleft, right, hright, happend⟩
    obtain ⟨cs, ds, rfl, rfl, rfl⟩ := List.map_eq_append_iff.1 happend.symm
    exact ⟨cs, (hl cs).1 hleft, ds, (hm ds).1 hright, rfl⟩
  · rintro ⟨cs, hcs, ds, hds, rfl⟩
    exact ⟨_, (hl cs).2 hcs, _, (hm ds).2 hds, List.map_append.symm⟩

end Caseless

theorem caseless_digits : Caseless digits := by
  have hdigit : CaselessClass IsDigit := .of_test Char.isDigit (fun _ => isDigit_iff) (by decide)
  exact (Caseless.char hdigit).mul (Caseless.kstar_char hdigit)

theorem caseless_mark (kind : Kind) : Caseless (Rule.mark kind).language := by
  intro cs
  simp only [mem_mark_iff]
  cases hmark : kind.mark? with
  | none => simp
  | some text =>
    have hsigns : ∀ d ∈ text, (capitals.all fun c => (c.toLower == d) == (c == d)) = true := by
      refine List.all_eq_true.1 ?_
      cases kind <;> cases hmark <;> decide
    clear hmark
    rw [Option.some_inj, Option.some_inj]
    induction text generalizing cs with
    | nil => simp [eq_comm]
    | cons d text ih =>
      obtain ⟨hd, htext⟩ := List.forall_mem_cons.1 hsigns
      cases cs with
      | nil => simp
      | cons c cs =>
        have hc : d = c.toLower ↔ d = c := by
          have htest := apply_toLower (p := fun c => c == d) hd c
          rw [Bool.eq_iff_iff, beq_iff_eq, beq_iff_eq] at htest
          rw [eq_comm, htest, eq_comm]
        rw [List.map_cons, List.cons.injEq, List.cons.injEq, hc]
        exact and_congr_right fun _ => ih cs htext

/-- No rule looks at the case of letters. -/
theorem caseless (rule : Rule) : Caseless rule.language := by
  cases rule with
  | word =>
    refine (Caseless.char ?_).mul (Caseless.kstar_char ?_)
    · exact .of_test Scan.isWordStart (fun _ => isLetter_iff) (by decide)
    · exact .of_test Scan.isWordPart (fun _ => isWordPart_iff) (by decide)
  | quotedName =>
    have hquote : Caseless (Rule.char (· = '\x60')) :=
      .char (.of_test (· == '\x60') (fun _ => beq_iff_eq.symm) (by decide))
    refine (hquote.mul (Caseless.kstar_char ?_)).mul hquote
    exact .of_test Scan.isQuotable (fun _ => by simp [Scan.isQuotable]) (by decide)
  | number =>
    have hpoint : Caseless (Rule.char (· = '.')) :=
      .char (.of_test (· == '.') (fun _ => beq_iff_eq.symm) (by decide))
    have hmark : Caseless (Rule.char fun c => c = 'e' ∨ c = 'E') :=
      .char (.of_test (fun c => c == 'e' || c == 'E') (fun _ => by simp) (by decide))
    have hsign : Caseless (Rule.char fun c => c = '+' ∨ c = '-') :=
      .char (.of_test (fun c => c == '+' || c == '-') (fun _ => by simp) (by decide))
    exact (caseless_digits.mul (Caseless.one.add (hpoint.mul caseless_digits))).mul
      (Caseless.one.add ((hmark.mul (Caseless.one.add hsign)).mul caseless_digits))
  | mark kind => exact caseless_mark kind

theorem mem_of_eqUpToCase {rule : Rule} {text text' : List Char} (h : text ∈ rule.language)
    (hcase : EqUpToCase text text') : text' ∈ rule.language := by
  have hlower := (rule.caseless text).2 h
  rw [hcase] at hlower
  exact (rule.caseless text').1 hlower

end Rule

/-! ## Breaks -/

namespace Scan

/-- The characters that end any token but a quoted name. -/
def isBreak (c : Char) : Bool := isSeparator c || c == '\x60'

/-- A class without any of the breaks has none of them as a member. -/
theorem isBreak_eq_false {p : Char → Bool} {c : Char}
    (hp : [' ', '\t', '\r', '\n', '\x0c', '\x60'].any p = false) (hc : p c = true) :
    isBreak c = false := by
  by_contra hbreak
  simp only [isBreak, isSeparator, Bool.not_eq_false, Bool.or_eq_true, beq_iff_eq] at hbreak
  exact List.any_eq_false.1 hp c (by grind) hc

end Scan

namespace Rule

/-- A language whose texts hold no break. -/
def Unbroken (l : Language Char) : Prop := ∀ cs ∈ l, ∀ c ∈ cs, Scan.isBreak c = false

namespace Unbroken

variable {l m : Language Char} {p : Char → Prop}

theorem one : Unbroken 1 := by
  intro cs hcs
  simp [(Language.mem_one cs).1 hcs]

theorem char (hp : ∀ c, p c → Scan.isBreak c = false) : Unbroken (Rule.char p) := by
  rintro _ ⟨c, hc, rfl⟩
  simpa using hp c hc

theorem kstar_char (hp : ∀ c, p c → Scan.isBreak c = false) : Unbroken (Rule.char p)∗ :=
  fun _ hcs c hc => hp c (mem_kstar_char.1 hcs c hc)

theorem add (hl : Unbroken l) (hm : Unbroken m) : Unbroken (l + m) := fun cs hcs =>
  ((Language.mem_add l m cs).1 hcs).elim (hl cs) (hm cs)

theorem mul (hl : Unbroken l) (hm : Unbroken m) : Unbroken (l * m) := by
  intro cs hcs
  obtain ⟨left, hleft, right, hright, rfl⟩ := Language.mem_mul.1 hcs
  exact List.forall_mem_append.2 ⟨hl left hleft, hm right hright⟩

end Unbroken

theorem unbroken_digits : Unbroken digits := by
  have hdigit (c : Char) (hc : IsDigit c) : Scan.isBreak c = false :=
    Scan.isBreak_eq_false rfl (isDigit_iff.1 hc)
  exact (Unbroken.char hdigit).mul (Unbroken.kstar_char hdigit)

/-- No text of a rule holds a break, quoted names apart. -/
theorem unbroken {rule : Rule} (hrule : rule ≠ .quotedName) : Unbroken rule.language := by
  cases rule with
  | word =>
    refine (Unbroken.char fun c hc => ?_).mul (Unbroken.kstar_char fun c hc => ?_)
    · exact Scan.isBreak_eq_false rfl (isLetter_iff.1 hc)
    · exact Scan.isBreak_eq_false rfl (isWordPart_iff.1 hc)
  | quotedName => exact absurd rfl hrule
  | number =>
    have hpoint : Unbroken (Rule.char (· = '.')) := .char (by rintro _ rfl; rfl)
    have hmark : Unbroken (Rule.char fun c => c = 'e' ∨ c = 'E') :=
      .char (by rintro _ (rfl | rfl) <;> rfl)
    have hsign : Unbroken (Rule.char fun c => c = '+' ∨ c = '-') :=
      .char (by rintro _ (rfl | rfl) <;> rfl)
    exact (unbroken_digits.mul (Unbroken.one.add (hpoint.mul unbroken_digits))).mul
      (Unbroken.one.add ((hmark.mul (Unbroken.one.add hsign)).mul unbroken_digits))
  | mark kind =>
    intro text htext c hc
    have hmark := mem_mark_iff.1 htext
    have hall : (text.all fun c => !Scan.isBreak c) = true := by
      cases kind <;> cases hmark <;> decide
    simpa using List.all_eq_true.1 hall c hc

/-- Only quoted names begin with a backtick. -/
theorem eq_quotedName_of_mem {rule : Rule} {tail : List Char}
    (h : '\x60' :: tail ∈ rule.language) : rule = .quotedName := by
  by_contra hrule
  exact absurd (unbroken hrule _ h '\x60' (by simp)) (by decide)

/-- Of two quoted names at the head of one text neither is longer. -/
theorem length_eq_of_quotedName {text text' rest rest' : List Char}
    (h : text ∈ Rule.quotedName.language) (h' : text' ∈ Rule.quotedName.language)
    (hcut : text ++ rest = text' ++ rest') : text.length = text'.length := by
  obtain ⟨inside, hinside, rfl⟩ := mem_quotedName_iff.1 h
  obtain ⟨inside', hinside', rfl⟩ := mem_quotedName_iff.1 h'
  have hlexeme := Scan.lexeme_quotedName hinside rest
  have htails : inside ++ ['\x60'] ++ rest = inside' ++ ['\x60'] ++ rest' := (List.cons.inj hcut).2
  rw [htails, Scan.lexeme_quotedName hinside' rest'] at hlexeme
  have hlength : (inside' ++ ['\x60']).length = (inside ++ ['\x60']).length :=
    congrArg Prod.snd hlexeme
  rw [List.length_cons, List.length_cons, hlength]

/-- A quoted name at the head of a text is no longer than any other text of a rule there: it would
begin with the backtick of that text, and end with it. -/
theorem length_le_of_quotedName {rule : Rule} {text longer rest : List Char}
    (h : text ∈ rule.language) (hlonger : longer ∈ Rule.quotedName.language)
    (hstarts : longer <+: text ++ rest) : longer.length ≤ text.length := by
  obtain ⟨rest', hcut⟩ := hstarts
  obtain ⟨inside, -, rfl⟩ := mem_quotedName_iff.1 hlonger
  obtain ⟨c, tail, rfl⟩ := List.exists_cons_of_ne_nil (ne_nil_of_mem h)
  obtain ⟨rfl, -⟩ := List.cons.inj hcut
  rw [eq_quotedName_of_mem h] at h
  exact (length_eq_of_quotedName hlonger h hcut).le

end Rule

/-! ## What follows a token -/

/-- Up to the case of letters, the second text goes on as the first does, until it ends or breaks
off. -/
inductive Scan.Tracks : List Char → List Char → Prop
  | stop {cs ds : List Char} (h : Breaks (fun c => !isBreak c) ds) : Tracks cs ds
  | step {c d : Char} {cs ds : List Char} (hc : c.toLower = d.toLower) (h : Tracks cs ds) :
      Tracks (c :: cs) (d :: ds)

namespace Scan.Tracks

variable {cs ds : List Char}

theorem append {text text' : List Char} (htext : EqUpToCase text text') (h : Tracks cs ds) :
    Tracks (text ++ cs) (text' ++ ds) := by
  induction text generalizing text' with
  | nil =>
    obtain rfl := List.map_eq_nil_iff.1 htext.symm
    exact h
  | cons c text ih =>
    obtain ⟨d, text', rfl, hc, htext⟩ := List.map_eq_cons_iff.1 htext.symm
    exact .step hc.symm (ih htext.symm)

/-- What stands at the head of the second text, and does not break off, stands at the head of the
first, up to the case of letters. -/
theorem exists_start (h : Tracks cs ds) : ∀ text, text <+: ds →
    (∀ c ∈ text, isBreak c = false) → ∃ text', text' <+: cs ∧ EqUpToCase text' text := by
  induction h with
  | stop hbreaks =>
    intro text hstarts hunbroken
    cases text with
    | nil => exact ⟨[], List.nil_prefix, rfl⟩
    | cons c text =>
      obtain ⟨rest, rfl⟩ := hstarts
      have hc := breaks_cons.1 hbreaks
      rw [hunbroken c (by simp)] at hc
      cases hc
  | @step c d cs ds hc h ih =>
    intro text hstarts hunbroken
    cases text with
    | nil => exact ⟨[], List.nil_prefix, rfl⟩
    | cons e text =>
      obtain ⟨rfl, htext⟩ := List.cons_prefix_cons.1 hstarts
      obtain ⟨text', hstarts', hcase⟩ := ih text htext (List.forall_mem_cons.1 hunbroken).2
      refine ⟨c :: text', List.cons_prefix_cons.2 ⟨rfl, hstarts'⟩, ?_⟩
      rw [EqUpToCase, List.map_cons, List.map_cons, hc, hcase]

end Scan.Tracks

/-- A longest match stays one in another case, and before a text that tracks what follows it. -/
theorem IsLongestMatch.track {kind : Kind} {text text' rest rest' : List Char}
    (h : IsLongestMatch kind text rest) (htext : EqUpToCase text text')
    (hrest : Scan.Tracks rest rest') : IsLongestMatch kind text' rest' := by
  have hmem : text' ∈ kind.rule.language := Rule.mem_of_eqUpToCase h.mem htext
  refine ⟨hmem, fun rule longer hlonger hstarts => ?_, fun hrule keyword => ?_⟩
  · by_cases hquoted : rule = .quotedName
    · subst hquoted
      exact Rule.length_le_of_quotedName hmem hlonger hstarts
    · obtain ⟨longer', hstarts', hcase⟩ :=
        (hrest.append htext).exists_start longer hstarts (Rule.unbroken hquoted longer hlonger)
      have hle := h.longest rule longer' (Rule.mem_of_eqUpToCase hlonger hcase.symm) hstarts'
      rwa [hcase.length_eq, htext.length_eq] at hle
  · rw [h.keyword hrule keyword]
    exact ⟨htext.symm.trans, htext.trans⟩

/-! ## Texts without faults -/

/-- The text from an offset on is made of these tokens, with nothing but separators between them. -/
inductive Laid : Nat → List Char → List Token → Prop
  | nil {offset : Nat} : Laid offset [] []
  | separator {offset : Nat} {c : Char} {cs : List Char} {tokens : List Token}
      (hc : Scan.isSeparator c = true) (h : Laid (offset + c.utf8Size) cs tokens) :
      Laid offset (c :: cs) tokens
  | token {offset : Nat} {kind : Kind} {text rest : List Char} {tokens : List Token}
      (hmatch : IsLongestMatch kind text rest) (h : Laid (offset + byteLength text) rest tokens) :
      Laid offset (text ++ rest)
        (⟨kind, String.ofList text, ⟨offset, offset + byteLength text⟩⟩ :: tokens)

theorem Scan.laid_piecesFrom (offset : Nat) (cs : List Char) :
    (piecesFrom offset cs).filterMap Piece.fault? = [] →
      Laid offset cs ((piecesFrom offset cs).filterMap Piece.token?) := by
  induction offset, cs using piecesFrom.induct with
  | case1 =>
    intro _
    rw [piecesFrom]
    exact .nil
  | case2 offset c cs hsep ih =>
    rw [piecesFrom, if_pos hsep]
    exact fun hfaults => .separator hsep (ih hfaults)
  | case3 offset c cs hsep kind more hlexeme taken stop ih =>
    rw [piecesFrom, if_neg hsep, hlexeme]
    intro hfaults
    cases kind with
    | none => cases hfaults
    | some kind =>
      have hmore : more ≤ cs.length := by simpa [hlexeme] using snd_lexeme_le c cs
      have hmatch : IsLongestMatch kind taken (cs.drop more) := by
        refine lexeme_eq_some_iff.1 ?_
        rw [List.take_append_drop, List.length_take, Nat.min_eq_left hmore]
        exact hlexeme
      have htext : c :: cs = taken ++ cs.drop more := by simp [taken]
      rw [htext]
      exact .token hmatch (ih hfaults)

theorem laid_of_faultsOf {source : String} (h : faultsOf source = []) :
    Laid 0 source.toList (tokensOf source) :=
  Scan.laid_piecesFrom 0 source.toList h

/-- A longest match begins with no separator. -/
theorem IsLongestMatch.isSeparator_head {kind : Kind} {c : Char} {tail rest : List Char}
    (h : IsLongestMatch kind (c :: tail) rest) : Scan.isSeparator c = false :=
  (Scan.exists_lexeme_of_mem_language h.mem List.prefix_rfl).1

/-- A longest match and what follows it are cut into its word and those of what follows. -/
theorem IsLongestMatch.isCut {kind : Kind} {text rest : List Char} {words : List Word}
    (h : IsLongestMatch kind text rest) (hrest : IsCut rest words) :
    IsCut (text ++ rest) (⟨kind, text⟩ :: words) := by
  obtain ⟨c, tail, rfl⟩ := List.exists_cons_of_ne_nil (Rule.ne_nil_of_mem h.mem)
  exact .lexeme h.isSeparator_head (Scan.lexeme_eq_some_iff.2 h) hrest

namespace Laid

variable {offset : Nat} {gap cs rest : List Char} {token : Token} {tokens : List Token}

theorem isCut (h : Laid offset cs tokens) : IsCut cs (tokens.map Token.word) := by
  induction h with
  | nil => exact .nil
  | separator hc _ ih => exact ih.separator hc
  | token hmatch _ ih => simpa [Token.word] using hmatch.isCut ih

theorem behind_gap (h : Laid offset (gap ++ cs) tokens)
    (hgap : ∀ c ∈ gap, Scan.isSeparator c = true) :
    Laid (offset + byteLength gap) cs tokens := by
  induction gap generalizing offset with
  | nil => exact h
  | cons c gap ih =>
    obtain ⟨hc, hgap⟩ := List.forall_mem_cons.1 hgap
    generalize hcs : c :: gap ++ cs = text at h
    cases h with
    | nil => cases hcs
    | separator _ h =>
      obtain ⟨rfl, rfl⟩ := List.cons.inj hcs
      rw [byteLength, ← Nat.add_assoc]
      exact ih h hgap
    | @token _ kind text _ _ hmatch _ =>
      obtain ⟨d, tail, rfl⟩ := List.exists_cons_of_ne_nil (Rule.ne_nil_of_mem hmatch.mem)
      have hd := hmatch.isSeparator_head
      rw [← (List.cons.inj hcs).1, hc] at hd
      cases hd

theorem exists_isLongestMatch (h : Laid offset cs tokens) :
    ∀ token ∈ tokens, ∃ rest, IsLongestMatch token.kind token.text.toList rest := by
  induction h with
  | nil => simp
  | separator _ _ ih => exact ih
  | @token _ _ _ rest _ hmatch _ ih =>
    refine List.forall_mem_cons.2 ⟨⟨rest, ?_⟩, ih⟩
    rw [String.toList_ofList]
    exact hmatch

theorem behind_token (h : Laid offset (token.text.toList ++ rest) (token :: tokens)) :
    IsLongestMatch token.kind token.text.toList rest ∧
      Laid (offset + byteLength token.text.toList) rest tokens := by
  obtain ⟨_, hmatch⟩ := h.exists_isLongestMatch token (by simp)
  generalize hcs : token.text.toList ++ rest = cs at h
  cases h with
  | separator hc h =>
    obtain ⟨c, tail, htext⟩ := List.exists_cons_of_ne_nil (Rule.ne_nil_of_mem hmatch.mem)
    rw [htext] at hmatch hcs
    have hd := hmatch.isSeparator_head
    rw [(List.cons.inj hcs).1, hc] at hd
    cases hd
  | token hmatch h =>
    rw [String.toList_ofList] at hcs ⊢
    obtain rfl := List.append_cancel_left hcs
    exact ⟨hmatch, h⟩

end Laid

/-! ## Other separators and other cases of keywords -/

/-- A run of separators is replaced by another, which is empty only where the first is. -/
structure RelaysGap (gap gap' : List Char) : Prop where
  before : ∀ c ∈ gap, Scan.isSeparator c = true
  after : ∀ c ∈ gap', Scan.isSeparator c = true
  kept : gap ≠ [] → gap' ≠ []

/-- The text of a token is replaced by one in another case, and only if it is a keyword's. -/
structure Token.Recases (token : Token) (text' : List Char) : Prop where
  case : EqUpToCase token.text.toList text'
  other : (∀ keyword, token.kind ≠ .keyword keyword) → text' = token.text.toList

/-- Between the tokens of a text, and before and behind them, other separators are put, and keywords
are written in other cases. -/
inductive Relaid : List Token → List Char → List Char → Prop
  | done {gap gap' : List Char} (hgap : RelaysGap gap gap') : Relaid [] gap gap'
  | token {token : Token} {tokens : List Token} {gap gap' text' rest rest' : List Char}
      (hgap : RelaysGap gap gap') (htext : token.Recases text') (h : Relaid tokens rest rest') :
      Relaid (token :: tokens) (gap ++ (token.text.toList ++ rest)) (gap' ++ (text' ++ rest'))

theorem breaks_of_relaysGap {gap gap' : List Char} (h : RelaysGap gap gap') (hne : gap' ≠ [])
    (rest : List Char) : Breaks (fun c => !Scan.isBreak c) (gap' ++ rest) := by
  obtain ⟨c, tail, rfl⟩ := List.exists_cons_of_ne_nil hne
  have hc := h.after c (by simp)
  simp [Scan.isBreak, hc]

namespace Relaid

variable {tokens : List Token} {cs cs' : List Char}

/-- The edited text tracks the other one: where it does not, it breaks off at a separator. -/
theorem tracks (h : Relaid tokens cs cs') : Scan.Tracks cs cs' := by
  induction h with
  | @done gap gap' hgap =>
    by_cases hne : gap' = []
    · rw [hne]
      exact .stop .nil
    · have hbreaks := breaks_of_relaysGap hgap hne []
      rw [List.append_nil] at hbreaks
      exact .stop hbreaks
  | @token token tokens gap gap' text' rest rest' hgap htext _ ih =>
    by_cases hne : gap' = []
    · have hempty : gap = [] := not_imp_not.1 hgap.kept hne
      rw [hne, hempty, List.nil_append, List.nil_append]
      exact ih.append htext.case
    · exact .stop (breaks_of_relaysGap hgap hne _)

/-- The edited text is cut into the same words, up to the case of keywords. -/
theorem exists_isCut (h : Relaid tokens cs cs') {offset : Nat} (hlaid : Laid offset cs tokens) :
    ∃ words, IsCut cs' words ∧ List.Forall₂ (fun (token : Token) (word : Word) =>
      word.kind = token.kind ∧ token.Recases word.text) tokens words := by
  induction h generalizing offset with
  | @done gap gap' hgap =>
    refine ⟨[], ?_, .nil⟩
    have hcut := IsCut.separators hgap.after .nil
    rwa [List.append_nil] at hcut
  | @token token tokens gap gap' text' rest rest' hgap htext h ih =>
    obtain ⟨hmatch, hrest⟩ := (hlaid.behind_gap hgap.before).behind_token
    obtain ⟨words, hcut, hwords⟩ := ih hrest
    have hmatch' := hmatch.track htext.case h.tracks
    exact ⟨⟨token.kind, text'⟩ :: words, .separators hgap.after (hmatch'.isCut hcut),
      .cons ⟨rfl, htext⟩ hwords⟩

end Relaid

/-! ## Another name -/

theorem toList_quoteName (name : String) :
    (quoteName name).toList = '\x60' :: (name.toList ++ ['\x60']) := by
  simp [quoteName]

/-- A name between backticks is a longest match, whatever follows. -/
theorem isLongestMatch_quoteName {name : String} (h : ∀ c ∈ name.toList, Scan.isQuotable c = true)
    (rest : List Char) : IsLongestMatch .quotedName (quoteName name).toList rest := by
  rw [toList_quoteName]
  exact Scan.lexeme_eq_some_iff.1 (Scan.lexeme_quotedName h rest)

/-- A token stands where its span says, and with a name between backticks in its place the text is
cut into the same words apart from this one. -/
theorem Laid.quote {offset : Nat} {cs : List Char} {front back : List Token} {token : Token}
    (h : Laid offset cs (front ++ token :: back)) : ∃ before after,
      cs = before ++ (token.text.toList ++ after) ∧
      token.span = ⟨offset + byteLength before,
        offset + byteLength before + byteLength token.text.toList⟩ ∧
      ∀ name : String, (∀ c ∈ name.toList, Scan.isQuotable c = true) →
        Scan.Tracks cs (before ++ ((quoteName name).toList ++ after)) ∧
        IsCut (before ++ ((quoteName name).toList ++ after)) (front.map Token.word ++
          ⟨.quotedName, (quoteName name).toList⟩ :: back.map Token.word) := by
  generalize htokens : front ++ token :: back = tokens at h
  induction h generalizing front with
  | nil => simp at htokens
  | @separator offset c cs tokens hc h ih =>
    obtain ⟨before, after, rfl, hspan, hquote⟩ := ih htokens
    refine ⟨c :: before, after, rfl, ?_, fun name hname => ⟨?_, ?_⟩⟩
    · rw [hspan, byteLength, Nat.add_assoc]
    · exact .step rfl (hquote name hname).1
    · exact (hquote name hname).2.separator hc
  | @token offset kind text rest tokens hmatch h ih =>
    cases front with
    | nil =>
      obtain ⟨rfl, rfl⟩ := List.cons.inj htokens
      refine ⟨[], rest, by simp, by simp [byteLength], fun name hname => ⟨?_, ?_⟩⟩
      · exact .stop (by simp [toList_quoteName, Scan.isBreak])
      · exact (isLongestMatch_quoteName hname rest).isCut h.isCut
    | cons first front =>
      obtain ⟨rfl, htail⟩ := List.cons.inj htokens
      obtain ⟨before, after, rfl, hspan, hquote⟩ := ih htail
      refine ⟨text ++ before, after, by simp, ?_, fun name hname => ?_⟩
      · rw [hspan, byteLength_append, Nat.add_assoc]
      · obtain ⟨htracks, hcut⟩ := hquote name hname
        rw [List.append_assoc]
        refine ⟨htracks.append rfl, ?_⟩
        simpa [Token.word] using (hmatch.track rfl htracks).isCut hcut

end PinQuery
