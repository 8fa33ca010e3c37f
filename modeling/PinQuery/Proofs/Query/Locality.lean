import PinQuery.Proofs.Query.Relocation
import PinQuery.Proofs.Query.Viability
import PinQuery.Proofs.Text.Cut
import PinQuery.Proofs.Token.Edits

/-!
# Phrases on their own

A phrase of a query can be cut out of its source and read again. Nothing is glued to it or torn
apart by the cut, and the reader does not look at what stands around it, so it is read as before,
only further to the left.

* `Expr.shift` and its siblings move everything to the right by some bytes. Moved tokens spell moved
  trees (`Spells.shift`).
* `Laid.unique`: a text without faults has one way to be cut into tokens.
* `exists_text_of_frames`: the text from the start of one token to the end of a later one, scanned
  on its own, has the same tokens.
* `Expr.parse?` and `Literal.parse?` read a text as a condition or a number, and
  `Spells.exists_parse?` and `SpellsNumber.exists_parse?` say what they make of a phrase.
-/

namespace PinQuery

open Text

/-! ## Moved trees -/

/-- The span moved to the right. -/
def Span.shift (bytes : Nat) (span : Span) : Span := ⟨span.start + bytes, span.stop + bytes⟩

/-- The token moved to the right. -/
def Token.shift (bytes : Nat) (token : Token) : Token :=
  { token with span := token.span.shift bytes }

/-- The name moved to the right. -/
def Name.shift (bytes : Nat) (name : Name) : Name := { name with span := name.span.shift bytes }

/-- The number moved to the right. -/
def Literal.shift (bytes : Nat) (literal : Literal) : Literal :=
  { literal with span := literal.span.shift bytes }

/-- The tree with all its nodes moved to the right. -/
def Expr.shift (bytes : Nat) : Expr → Expr
  | .column name => .column (name.shift bytes)
  | .literal number => .literal (number.shift bytes)
  | .comparison op left right span =>
    .comparison op (left.shift bytes) (right.shift bytes) (span.shift bytes)
  | .logical op left right span =>
    .logical op (left.shift bytes) (right.shift bytes) (span.shift bytes)
  | .negation inner span => .negation (inner.shift bytes) (span.shift bytes)

section

variable {tokens : List Token} {e : Expr} (bytes : Nat)

theorem Expr.span_shift (e : Expr) : (e.shift bytes).span = e.span.shift bytes := by
  cases e <;> rfl

theorem Token.name?_shift (token : Token) :
    (token.shift bytes).name? = token.name?.map (Name.shift bytes) := by
  obtain ⟨kind, text, span⟩ := token
  cases kind <;> rfl

theorem lastStop_shift (h : tokens ≠ []) :
    lastStop (tokens.map (Token.shift bytes)) = lastStop tokens + bytes := by
  obtain ⟨last, hlast⟩ := Option.ne_none_iff_exists'.1 (mt List.getLast?_eq_none_iff.1 h)
  simp [lastStop, List.getLast?_map, hlast, Token.shift, Span.shift]

theorem SpellsNumber.shift {literal : Literal} (h : SpellsNumber tokens literal) :
    SpellsNumber (tokens.map (Token.shift bytes)) (literal.shift bytes) := by
  cases h with
  | unsigned hkind hvalue => exact .unsigned hkind hvalue
  | plus hsign hkind hvalue => exact .plus hsign hkind hvalue
  | minus hsign hkind hvalue => exact .minus hsign hkind hvalue

theorem SpellsOperand.shift (h : SpellsOperand tokens e) :
    SpellsOperand (tokens.map (Token.shift bytes)) (e.shift bytes) := by
  cases h with
  | name hname =>
    refine .name ?_
    rw [Token.name?_shift, hname]
    rfl
  | number h => exact .number (h.shift bytes)

/-- **Moved tokens spell the moved tree.** -/
theorem Spells.shift {level : Level} (h : Spells level tokens e) :
    Spells level (tokens.map (Token.shift bytes)) (e.shift bytes) := by
  induction h with
  | conjunction _ ih => exact .conjunction ih
  | factor _ ih => exact .factor ih
  | @or lefts rights left right token _ hkind _ ihleft ihright =>
    have hkind : (token.shift bytes).kind = .keyword .or := hkind
    have hor := Spells.or ihleft hkind ihright
    rw [Expr.span_shift, Expr.span_shift] at hor
    rw [List.map_append, List.map_cons]
    exact hor
  | @and lefts rights left right token _ hkind _ ihleft ihright =>
    have hkind : (token.shift bytes).kind = .keyword .and := hkind
    have hand := Spells.and ihleft hkind ihright
    rw [Expr.span_shift, Expr.span_shift] at hand
    rw [List.map_append, List.map_cons]
    exact hand
  | @not token tokens e hkind h ih =>
    have hkind : (token.shift bytes).kind = .keyword .not := hkind
    have hnot := Spells.not hkind ih
    rw [lastStop_shift bytes h.ne_nil] at hnot
    exact hnot
  | @paren opening closing tokens e hopening _ hclosing ih =>
    have hopening : (opening.shift bytes).kind = .leftParen := hopening
    have hclosing : (closing.shift bytes).kind = .rightParen := hclosing
    rw [List.map_cons, List.map_append]
    exact .paren hopening ih hclosing
  | @comparison lefts rights left right token op hleft hop hright =>
    have hop : DenotesComparison (token.shift bytes).kind op := hop
    have hcomparison := Spells.comparison (hleft.shift bytes) hop (hright.shift bytes)
    rw [Expr.span_shift, Expr.span_shift] at hcomparison
    rw [List.map_append, List.map_cons]
    exact hcomparison

end

/-! ## Texts cut out of a source -/

namespace Laid

variable {offset : Nat} {cs : List Char} {token : Token} {tokens tokens' front back : List Token}

theorem shift (h : Laid offset cs tokens) (bytes : Nat) :
    Laid (offset + bytes) cs (tokens.map (Token.shift bytes)) := by
  induction h with
  | nil => exact .nil
  | separator hc _ ih =>
    rw [Nat.add_right_comm] at ih
    exact .separator hc ih
  | @token offset kind text rest tokens hmatch _ ih =>
    rw [Nat.add_right_comm] at ih
    have htoken := Laid.token hmatch ih
    rw [Nat.add_right_comm] at htoken
    exact htoken

/-- **A text without faults is cut into tokens in one way.** -/
theorem unique (h : Laid offset cs tokens) (h' : Laid offset cs tokens') : tokens = tokens' := by
  induction h generalizing tokens' with
  | nil =>
    generalize hcs : ([] : List Char) = cs at h'
    cases h' with
    | nil => rfl
    | separator => cases hcs
    | token hmatch =>
      exact absurd (List.append_eq_nil_iff.1 hcs.symm).1 (Rule.ne_nil_of_mem hmatch.mem)
  | @separator offset c cs tokens hc _ ih =>
    have hbehind : Laid offset ([c] ++ cs) tokens' := h'
    have hgap := hbehind.behind_gap (by simpa using hc)
    exact ih (by simpa [byteLength] using hgap)
  | @token offset kind text rest tokens hmatch _ ih =>
    obtain ⟨c, tail, htext⟩ := List.exists_cons_of_ne_nil (Rule.ne_nil_of_mem hmatch.mem)
    generalize hcs : text ++ rest = cs at h'
    cases h' with
    | nil => simp [htext] at hcs
    | separator hc =>
      rw [htext] at hmatch hcs
      have hhead := hmatch.isSeparator_head
      rw [(List.cons.inj hcs).1, hc] at hhead
      cases hhead
    | @token _ kind' text' rest' _ hmatch' h' =>
      -- neither of two longest matches is longer
      have hle := hmatch.longest _ text' hmatch'.mem (hcs ▸ List.prefix_append text' rest')
      have hle' := hmatch'.longest _ text hmatch.mem (hcs ▸ List.prefix_append text rest)
      obtain ⟨rfl, rfl⟩ := List.append_inj hcs (Nat.le_antisymm hle' hle)
      rw [hmatch.unique hmatch', ih h']

/-- The text from the start of a token on. -/
theorem exists_front (h : Laid offset cs (front ++ token :: back)) :
    ∃ before rest, cs = before ++ rest ∧ token.span.start = offset + byteLength before ∧
      Laid token.span.start rest (token :: back) := by
  generalize htokens : front ++ token :: back = tokens at h
  induction h generalizing front with
  | nil => simp at htokens
  | @separator offset c cs tokens hc h ih =>
    obtain ⟨before, rest, rfl, hstart, hrest⟩ := ih htokens
    refine ⟨c :: before, rest, rfl, ?_, hrest⟩
    rw [hstart, byteLength, Nat.add_assoc]
  | @token offset kind text rest tokens hmatch h ih =>
    cases front with
    | nil =>
      obtain ⟨rfl, rfl⟩ := List.cons.inj htokens
      exact ⟨[], text ++ rest, rfl, rfl, .token hmatch h⟩
    | cons first front =>
      obtain ⟨rfl, htail⟩ := List.cons.inj htokens
      obtain ⟨before, rest', rfl, hstart, hrest⟩ := ih htail
      refine ⟨text ++ before, rest', by simp, ?_, hrest⟩
      rw [hstart, byteLength_append, Nat.add_assoc]

/-- The text up to the end of a token. -/
theorem exists_back (h : Laid offset cs (tokens ++ back)) (hne : tokens ≠ []) :
    ∃ inside after, cs = inside ++ after ∧ lastStop tokens = offset + byteLength inside ∧
      Laid offset inside tokens := by
  generalize htokens : tokens ++ back = all at h
  induction h generalizing tokens with
  | nil => exact absurd (List.append_eq_nil_iff.1 htokens).1 hne
  | @separator offset c cs all hc h ih =>
    obtain ⟨inside, after, rfl, hstop, hinside⟩ := ih hne htokens
    refine ⟨c :: inside, after, rfl, ?_, .separator hc hinside⟩
    rw [hstop, byteLength, Nat.add_assoc]
  | @token offset kind text rest all hmatch h ih =>
    obtain ⟨first, tokens, rfl⟩ := List.exists_cons_of_ne_nil hne
    obtain ⟨rfl, htail⟩ := List.cons.inj htokens
    by_cases hlast : tokens = []
    · subst hlast
      refine ⟨text, rest, rfl, rfl, ?_⟩
      have htoken : Laid offset (text ++ []) _ := .token hmatch.alone .nil
      rwa [List.append_nil] at htoken
    · obtain ⟨inside, after, rfl, hstop, hinside⟩ := ih hlast htail
      refine ⟨text ++ inside, after, by simp, ?_, .token hmatch.of_append hinside⟩
      rw [lastStop_cons_of_ne_nil _ hlast, hstop, byteLength_append, Nat.add_assoc]

end Laid

/-- The span goes from the start of the first of some tokens to the end of the last one. -/
def Span.Frames (span : Span) (tokens : List Token) : Prop :=
  ∃ first rest, tokens = first :: rest ∧ span = ⟨first.span.start, lastStop tokens⟩

/-- **Scanning is local.** The text from the start of one token to the end of a later one has, on
its own, the tokens that stand there in its source. -/
theorem exists_text_of_frames {source : String} {tokens : List Token} {span : Span}
    (hfaults : faultsOf source = []) (htokens : tokens <:+: tokensOf source)
    (hframes : span.Frames tokens) :
    ∃ text : String, slice? span source.toList = some text.toList ∧ faultsOf text = [] ∧
      (tokensOf text).map Token.word = tokens.map Token.word ∧
      (tokensOf text).map (Token.shift span.start) = tokens := by
  obtain ⟨front, back, hsource⟩ := htokens
  obtain ⟨first, rest, rfl, rfl⟩ := hframes
  have hlaid := laid_of_faultsOf hfaults
  rw [← hsource, List.append_assoc] at hlaid
  obtain ⟨before, fromStart, hcut, hstart, hlaid⟩ := hlaid.exists_front
  obtain ⟨inside, after, rfl, hstop, hinside⟩ := hlaid.exists_back (List.cons_ne_nil first rest)
  rw [Nat.zero_add] at hstart
  have htext : (String.ofList inside).toList = inside := String.toList_ofList
  have hisCut : IsCut (String.ofList inside).toList ((first :: rest).map Token.word) := by
    rw [htext]
    exact hinside.isCut
  obtain ⟨hwords, hnone⟩ := hisCut.tokensOf
  refine ⟨String.ofList inside, ?_, hnone, hwords, ?_⟩
  · rw [htext, hstop, hstart, hcut]
    exact slice?_append before inside after
  · have halone := (laid_of_faultsOf hnone).shift first.span.start
    rw [Nat.zero_add, htext] at halone
    exact halone.unique hinside

/-! ## Reading a text that is no query -/

/-- Clauses with nothing in them. -/
def Draft.blank : Draft := ⟨0, [], ⟨"", .empty 0⟩, none, none, none⟩

/-- The stage after the tokens of a text, if it has no fault and all of them can stand there. -/
def Stage.after? (stage : Stage) (text : String) : Option Stage :=
  if (faultsOf text).isEmpty then ((tokensOf text).foldlM Stage.step stage).toOption else none

/-- The condition that a text spells on its own. -/
def Expr.parse? (text : String) : Option Expr :=
  match Stage.after? (.condition .blank [] (.predicate .empty)) text with
  | some (.condition _ [] (.ended disjunct value)) => some (.joinOptional .or disjunct value)
  | _ => none

/-- The number that a text spells on its own, its sign included. -/
def Literal.parse? (text : String) : Option Literal :=
  match Stage.after? (.sleep .blank none) text with
  | some (.clauses ⟨_, _, _, none, literal, none⟩) => literal
  | _ => none

section

variable {source text : String} {tokens : List Token} {e e' : Expr} {literal literal' : Literal}

theorem Stage.after?_eq_some {stage stage' : Stage} (hfaults : faultsOf text = [])
    (h : Reaches stage (tokensOf text) stage') : stage.after? text = some stage' := by
  rw [after?, hfaults, h]
  rfl

theorem Spells.parse? (h : Spells .disjunction (tokensOf text) e) (hfaults : faultsOf text = []) :
    Expr.parse? text = some e := by
  obtain ⟨disjunct, value, rfl, hreaches⟩ := h.completes .blank []
  rw [Expr.parse?, Stage.after?_eq_some hfaults hreaches]

theorem SpellsNumber.parse? (h : SpellsNumber (tokensOf text) literal)
    (hfaults : faultsOf text = []) : Literal.parse? text = some literal := by
  rw [Literal.parse?, Stage.after?_eq_some hfaults (h.reachesSleep .blank)]
  rfl

/-- Tokens spell at most one condition. -/
theorem Spells.unique (h : Spells .disjunction tokens e) (h' : Spells .disjunction tokens e') :
    e' = e := by
  obtain ⟨disjunct, value, rfl, hreaches⟩ := h.completes .blank []
  obtain ⟨disjunct', value', rfl, hreaches'⟩ := h'.completes .blank []
  cases hreaches.unique hreaches'
  rfl

/-- Tokens spell at most one number. -/
theorem SpellsNumber.unique (h : SpellsNumber tokens literal) (h' : SpellsNumber tokens literal') :
    literal' = literal := by
  cases (h.reachesSleep .blank).unique (h'.reachesSleep .blank)
  rfl

/-- **A condition is read on its own as in its query**, apart from where it stands. -/
theorem Spells.exists_parse? (h : Spells .disjunction tokens e) (hfaults : faultsOf source = [])
    (htokens : tokens <:+: tokensOf source) (hframes : e.span.Frames tokens) :
    ∃ text alone, slice? e.span source.toList = some text.toList ∧
      Expr.parse? text = some alone ∧ e = alone.shift e.span.start := by
  obtain ⟨text, hslice, hnone, hwords, hshift⟩ := exists_text_of_frames hfaults htokens hframes
  obtain ⟨alone, halone⟩ := h.relocate hwords
  have hmoved := halone.shift e.span.start
  rw [hshift] at hmoved
  exact ⟨text, alone, hslice, halone.parse? hnone, hmoved.unique h⟩

/-- **A number is read on its own as in its query**, apart from where it stands. -/
theorem SpellsNumber.exists_parse? (h : SpellsNumber tokens literal)
    (hfaults : faultsOf source = []) (htokens : tokens <:+: tokensOf source)
    (hframes : literal.span.Frames tokens) :
    ∃ text alone, slice? literal.span source.toList = some text.toList ∧
      Literal.parse? text = some alone ∧ literal = alone.shift literal.span.start := by
  obtain ⟨text, hslice, hnone, hwords, hshift⟩ := exists_text_of_frames hfaults htokens hframes
  obtain ⟨alone, halone⟩ := h.relocate hwords
  have hmoved := halone.shift literal.span.start
  rw [hshift] at hmoved
  exact ⟨text, alone, hslice, halone.parse? hnone, hmoved.unique h⟩

end

end PinQuery
