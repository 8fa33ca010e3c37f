import PinQuery.Proofs.Compile
import PinQuery.Proofs.Diagnostic.Checked
import PinQuery.Proofs.Query.Spans

/-!
# No source makes the program fail

Scanning, reading, planning, rendering and reporting, with every operation checked that can fail on
a machine; `none` is a failed one.

* A span is built from two offsets, which have to be in order and to fit into 32 bits
  (`Span.IsRange`). This is checked of every span that a stage or a query holds.
* The reader looks at its tokens through a `Cursor`, by index. It fails if the index is past the
  last token, which is the end of the query.
* A name in backticks is cut out of its text as a slice (`Token.unquoted?`).
* Reports are those of `Diagnostic.report?`. Planning and rendering have no operation that fails.

`Cursor.read?_eq` and `parse?_eq` say that the checked reader is the reader, `outcome?_eq_outcome`
that the whole run is.
-/

namespace PinQuery

open Text Checked

/-! ## Spans -/

/-- The ends are in order and fit into 32 bits. -/
def Span.IsRange (span : Span) : Prop := span.start ≤ span.stop ∧ span.stop < 2 ^ 32

instance (span : Span) : Decidable span.IsRange := inferInstanceAs (Decidable (_ ∧ _))

theorem Span.Lies.isRange {cs : List Char} {lo hi : Nat} {span : Span} (h : span.Lies cs lo hi)
    (hhi : hi < 2 ^ 32) : span.IsRange :=
  ⟨h.ordered, h.le_hi.trans_lt hhi⟩

/-- The tokens of a source, if the spans of all its pieces can be built. -/
def scan? (source : String) : Option (List Token) :=
  if (∀ piece ∈ Scan.pieces source, piece.span.IsRange) ∧ endOf source < 2 ^ 32 then
    some (scan source)
  else
    none

theorem scan?_eq {source : String} (hsize : endOf source < 2 ^ 32) :
    scan? source = some (scan source) := by
  refine if_pos ⟨fun piece hpiece => ?_, hsize⟩
  have hlies := Span.Lies.of_slice? (Scan.slice?_of_mem_pieces hpiece)
  exact hlies.isRange hsize

/-! ## One step of the reader -/

/-- The text of a token. A quoted name is cut out between its backticks. -/
def Token.unquoted? (token : Token) : Option (List Char) :=
  if token.kind = .quotedName then do
    let stop ← sub? (byteLength token.text.toList) 1
    slice? ⟨1, stop⟩ token.text.toList
  else
    some token.text.toList

/-- The stage after one more token, if the token can be unquoted and all spans of the stage can be
built. -/
def Stage.step? (stage : Stage) (token : Token) : Option (Except SyntaxError Stage) := do
  let _ ← token.unquoted?
  match stage.step token with
  | .error error => some (.error error)
  | .ok next => if ∀ span ∈ next.spans, span.IsRange then some (.ok next) else none

/-- The query that may end at a stage, if all its spans can be built, or the error of its end. -/
def Stage.close? (stage : Stage) (stop : Nat) (final : Token) : Option (Except SyntaxError Query) :=
  match stage.finish? stop with
  | some query => if ∀ span ∈ query.spans, span.IsRange then some (.ok query) else none
  | none => some (.error (stage.refuse final))

/-- Between two backticks there is a slice, and it is the name. -/
theorem Token.unquoted?_of_quotedName {token : Token} (h : token.Formed)
    (hkind : token.kind = .quotedName) :
    token.unquoted? = some (token.text.toList.drop 1).dropLast := by
  obtain ⟨inside, -, htext⟩ := h.quotedName hkind
  have hsize : byteLength token.text.toList = 1 + byteLength inside + 1 := by
    rw [htext, ← List.cons_append, byteLength_append]
    rfl
  have hstop : sub? (byteLength token.text.toList) 1 = some (1 + byteLength inside) := by
    rw [sub?_of_le (by omega), hsize, Nat.add_sub_cancel]
  have hslice : slice? ⟨1, 1 + byteLength inside⟩ token.text.toList = some inside :=
    slice?_eq_some_iff.2 ⟨['\x60'], ['\x60'], htext, rfl⟩
  rw [unquoted?, if_pos hkind, hstop]
  simp only [Option.bind_eq_bind, Option.bind_some, hslice]
  simp [htext]

/-- The unquoted text of a name is the name. -/
theorem Token.unquoted?_of_name? {token : Token} {name : Name} (h : token.Formed)
    (hname : token.name? = some name) : token.unquoted? = some name.text.toList := by
  rcases Token.kind_of_name? hname with hkind | hkind
  · rw [unquoted?, if_neg (by simp [hkind])]
    simp only [name?, hkind, Option.some.injEq] at hname
    rw [← hname]
  · rw [unquoted?_of_quotedName h hkind]
    simp only [name?, hkind, Option.some.injEq] at hname
    rw [← hname, String.toList_ofList]

theorem Token.exists_unquoted? {token : Token} (h : token.Formed) :
    ∃ text, token.unquoted? = some text := by
  by_cases hkind : token.kind = .quotedName
  · exact ⟨_, unquoted?_of_quotedName h hkind⟩
  · exact ⟨_, if_neg hkind⟩

section

variable {source : String} {before rest : List Token} {token : Token} {stage : Stage}

theorem Reaches.snoc {stage' next : Stage} (h : Reaches stage before stage')
    (hstep : stage'.step token = .ok next) : Reaches stage (before ++ [token]) next := by
  refine h.trans ?_
  rw [Reaches, List.foldlM_cons, hstep]
  rfl

/-- **No step of the reader fails.** -/
theorem Stage.step?_eq (hsize : endOf source < 2 ^ 32) (h : Reaches .select before stage)
    (hscan : scan source = before ++ token :: rest) :
    stage.step? token = some (stage.step token) := by
  have hmem : token ∈ scan source := by simp [hscan]
  obtain ⟨text, htext⟩ := Token.exists_unquoted? (formed_of_mem_scan hmem)
  simp only [step?, htext, Option.bind_eq_bind, Option.bind_some]
  cases hstep : stage.step token with
  | error error => rfl
  | ok next =>
    have hcut : scan source = before ++ [token] ++ rest := by rw [hscan, List.append_cons]
    have hlies := (h.snoc hstep).lies hcut
    exact if_pos fun span hspan => (hlies span hspan).isRange hsize

/-- **The end of a query never fails.** -/
theorem Stage.close?_eq (hsize : endOf source < 2 ^ 32) (h : Reaches .select before stage)
    (hscan : scan source = before ++ [token]) (hkind : token.kind = .endOfQuery) :
    stage.close? (lastStop before) token = some (match stage.finish? (lastStop before) with
      | some query => .ok query
      | none => .error (stage.refuse token)) := by
  unfold close?
  split
  next query hfinish =>
    have hspells := (SpellsStage.select.run h).finish hkind hfinish
    rw [List.nil_append, ← hscan] at hspells
    exact if_pos fun span hspan => (hspells.lies (placed_scan source) span hspan).isRange hsize
  next => rfl

end

/-! ## The reader -/

/-- Tokens and the index of the next one. -/
structure Cursor where
  tokens : List Token
  current : Nat

namespace Cursor

/-- The token at the index. -/
def peek? (cursor : Cursor) : Option Token := cursor.tokens[cursor.current]?

/-- The token before the index, or the first one. -/
def previous? (cursor : Cursor) : Option Token := cursor.tokens[cursor.current - 1]?

/-- The cursor behind the next token. -/
def advance (cursor : Cursor) : Cursor := { cursor with current := cursor.current + 1 }

/-- The number of tokens that are left. -/
def remaining (cursor : Cursor) : Nat := cursor.tokens.length - cursor.current

theorem remaining_advance_lt {cursor : Cursor} {token : Token} (h : cursor.peek? = some token) :
    cursor.advance.remaining < cursor.remaining := by
  obtain ⟨hlt, -⟩ := List.getElem?_eq_some_iff.1 h
  simp only [remaining, advance]
  omega

/-- The query from a cursor on. A token is read by moving behind it and looking back. -/
def read? (cursor : Cursor) (stage : Stage) : Option (Except SyntaxError Query) :=
  match _hpeek : cursor.peek? with
  | none => none
  | some token =>
    if token.kind = .endOfQuery then do
      let last ← cursor.previous?
      stage.close? last.span.stop token
    else do
      let token ← cursor.advance.previous?
      let result ← stage.step? token
      match result with
      | .error error => some (.error error)
      | .ok next => cursor.advance.read? next
termination_by cursor.remaining
decreasing_by exact remaining_advance_lt _hpeek

section

variable {cursor : Cursor} {stage : Stage} {token : Token}

theorem read?_of_end {last : Token} (hpeek : cursor.peek? = some token)
    (hkind : token.kind = .endOfQuery) (hlast : cursor.previous? = some last) :
    cursor.read? stage = stage.close? last.span.stop token := by
  rw [read?]
  split
  next hnone => simp [hpeek] at hnone
  next token' hsome =>
    obtain rfl := Option.some.inj (hpeek.symm.trans hsome)
    rw [if_pos hkind, hlast]
    rfl

theorem read?_of_token (hpeek : cursor.peek? = some token) (hkind : token.kind ≠ .endOfQuery) :
    cursor.read? stage = (stage.step? token).bind fun
      | .error error => some (.error error)
      | .ok next => cursor.advance.read? next := by
  have hprevious : cursor.advance.previous? = some token := hpeek
  rw [read?]
  split
  next hnone => simp [hpeek] at hnone
  next token' hsome =>
    obtain rfl := Option.some.inj (hpeek.symm.trans hsome)
    rw [if_neg hkind, hprevious]
    rfl

end

/-- The rest of `Query.read` from a stage on. -/
def readRest (source : String) (rest : List Token) (stage : Stage) : Except SyntaxError Query := do
  let last ← rest.foldlM Stage.step stage
  match last.finish? (lastStop (tokensOf source)) with
  | some query => .ok query
  | none => .error (last.refuse (.endAt (endOf source)))

/-- At the end of a source the reader looks back at the last token. In a source without tokens it
finds the end itself, and then no query ends there. -/
theorem read?_eq_of_end {source : String} (hsize : endOf source < 2 ^ 32) {stage : Stage}
    (h : Reaches .select (tokensOf source) stage) :
    (Cursor.mk (scan source) (tokensOf source).length).read? stage =
      some (readRest source [] stage) := by
  have hpeek : (Cursor.mk (scan source) (tokensOf source).length).peek? =
      some (.endAt (endOf source)) := by
    simp [peek?, scan]
  have hclose := stage.close?_eq hsize h rfl rfl
  rcases List.eq_nil_or_concat (tokensOf source) with hnil | ⟨init, last, hconcat⟩
  · have hprevious : (Cursor.mk (scan source) (tokensOf source).length).previous? =
        some (.endAt (endOf source)) := by
      simp [previous?, scan, hnil]
    rw [hnil] at h
    cases h
    rw [read?_of_end hpeek rfl hprevious]
    rfl
  · have hprevious : (Cursor.mk (scan source) (tokensOf source).length).previous? = some last := by
      simp [previous?, scan, hconcat]
    rw [read?_of_end hpeek rfl hprevious]
    have hstop : lastStop (tokensOf source) = last.span.stop := by
      rw [hconcat, List.concat_eq_append, lastStop_append_singleton]
    rw [← hstop, hclose]
    rfl

/-- **No operation of the reader fails**, wherever it is in a source. -/
theorem read?_eq {source : String} (hsize : endOf source < 2 ^ 32) {before rest : List Token}
    {stage : Stage} (h : Reaches .select before stage)
    (htokens : tokensOf source = before ++ rest) :
    (Cursor.mk (scan source) before.length).read? stage = some (readRest source rest stage) := by
  induction rest generalizing before stage with
  | nil =>
    rw [List.append_nil] at htokens
    subst htokens
    exact read?_eq_of_end hsize h
  | cons token rest ih =>
    have hscan : scan source = before ++ token :: (rest ++ [.endAt (endOf source)]) := by
      simp [scan, htokens]
    have hkind : token.kind ≠ .endOfQuery := by
      have hmem : token ∈ tokensOf source := by simp [htokens]
      exact (isLexeme_of_mem_tokensOf hmem).ne_endOfQuery
    have hpeek : (Cursor.mk (scan source) before.length).peek? = some token := by
      simp [peek?, hscan]
    rw [read?_of_token hpeek hkind, Stage.step?_eq hsize h hscan]
    cases hstep : stage.step token with
    | error error =>
      rw [readRest, List.foldlM_cons, hstep]
      rfl
    | ok next =>
      have hrest := ih (h.snoc hstep) (by rw [htokens, List.append_cons])
      rw [List.length_append, List.length_singleton] at hrest
      rw [readRest, List.foldlM_cons, hstep]
      exact hrest

end Cursor

/-- The query that a source spells. -/
def Query.parse? (source : String) : Option (Except SyntaxError Query) := do
  let tokens ← scan? source
  match faultsOf source with
  | span :: _ => some (.error ⟨.invalidCharacter, span⟩)
  | [] => (Cursor.mk tokens 0).read? .select

/-- **Reading a source never fails**, and the checked reader is the reader. -/
theorem Query.parse?_eq {source : String} (hsize : endOf source < 2 ^ 32) :
    Query.parse? source = some (Query.parse source) := by
  have hstart : Reaches .select [] .select := rfl
  have hread : (Cursor.mk (scan source) 0).read? .select =
      some (Query.read (tokensOf source) (endOf source)) :=
    Cursor.read?_eq hsize hstart (List.nil_append _).symm
  simp only [Query.parse?, scan?_eq hsize, Option.bind_eq_bind, Option.bind_some, Query.parse]
  cases faultsOf source with
  | nil => exact hread
  | cons span spans => rfl

/-! ## Where errors are shown -/

theorem Name.span_of_mem_offences {name : Name} {error : SemanticError}
    (h : error ∈ name.offences) : error.span = name.span := by
  unfold Name.offences at h
  split at h
  next => cases h
  next =>
    rw [List.mem_singleton.1 h]
    rfl

theorem Expr.span_mem_of_mem_operandOffences {e : Expr} {error : SemanticError}
    (h : error ∈ e.operandOffences) : error.span ∈ e.spans := by
  cases e with
  | column name => simp [spans, Name.span_of_mem_offences h]
  | literal | comparison | logical | negation => cases h

/-- What is wrong with a condition stands at one of its nodes. -/
theorem Expr.span_mem_of_mem_offences {e : Expr} {error : SemanticError} (h : error ∈ e.offences) :
    error.span ∈ e.spans := by
  induction e with
  | column name =>
    rw [List.mem_singleton.1 h]
    exact List.mem_singleton.2 rfl
  | literal number =>
    rw [List.mem_singleton.1 h]
    exact List.mem_singleton.2 rfl
  | comparison op left right span _ _ =>
    rw [offences] at h
    split at h
    next =>
      refine List.mem_cons_of_mem _ (List.mem_append.2 ?_)
      exact (List.mem_append.1 h).imp span_mem_of_mem_operandOffences
        span_mem_of_mem_operandOffences
    next =>
      rw [List.mem_singleton.1 h]
      exact List.mem_cons_self
  | logical op left right span ihleft ihright =>
    refine List.mem_cons_of_mem _ (List.mem_append.2 ?_)
    exact (List.mem_append.1 h).imp ihleft ihright
  | negation inner span ih =>
    rw [offences] at h
    refine List.mem_cons_of_mem _ ?_
    split at h
    next => exact ih h
    next =>
      rw [List.mem_singleton.1 h]
      exact inner.span_mem_spans

/-- What is wrong with a query stands at one of its parts. -/
theorem Query.span_mem_of_mem_offences {vocabulary : List String} {query : Query}
    {error : SemanticError} (h : error ∈ query.offences vocabulary) : error.span ∈ query.spans := by
  simp only [Query.offences, List.mem_append] at h
  simp only [Query.spans, clauseSpans, List.mem_cons, List.mem_append, List.mem_map]
  rcases h with (h | h) | h
  · obtain ⟨name, hname, hoffence⟩ := List.mem_flatMap.1 h
    exact .inr (.inl ⟨name, hname, (Name.span_of_mem_offences hoffence).symm⟩)
  · unfold TargetName.offences at h
    split at h
    next => cases h
    next =>
      rw [List.mem_singleton.1 h]
      exact .inr (.inr (.inl rfl))
  · cases hcondition : query.condition with
    | none =>
      rw [hcondition] at h
      cases h
    | some e =>
      rw [hcondition] at h
      exact .inr (.inr (.inr (.inl (Expr.span_mem_of_mem_offences h))))

/-- **An error of planning is shown at a span of its source.** -/
theorem span_lies_of_ofQuery {known : OrderedSet String} {source : String} {query : Query}
    {error : SemanticError} (hparse : Query.parse source = .ok query)
    (hplan : Plan.ofQuery known query = .error error) :
    error.span.Lies source.toList 0 (endOf source) :=
  lies_of_parse hparse _ (Query.span_mem_of_mem_offences (mem_offences_of_ofQuery hplan))

/-- **The diagnostic of an error shows a sound excerpt.** -/
theorem sound_of_planSource {known : OrderedSet String} {source : String} {error : CompileError}
    (hsize : endOf source < 2 ^ 32) (h : planSource known source = .error error)
    (filename : Option String) :
    ∀ e ∈ ((error.diagnostic source).withFilename filename).excerpt, e.Sound := by
  obtain ⟨span, hspan, hexcerpt⟩ : ∃ span : Span, span.Lies source.toList 0 (endOf source) ∧
      (error.diagnostic source).excerpt = some ⟨none, source, span⟩ := by
    rcases planSource_eq_error_iff.1 h with
      ⟨cause, hparse, rfl⟩ | ⟨query, cause, hparse, hplan, rfl⟩
    · exact ⟨_, shownSpan_lies_of_parse hparse, rfl⟩
    · exact ⟨_, span_lies_of_ofQuery hparse hplan, rfl⟩
  obtain ⟨inside, hinside⟩ := hspan.exists_slice?
  intro e he
  rw [Diagnostic.excerpt_withFilename hexcerpt] at he
  cases he
  exact Excerpt.sound_of_slice? hinside hsize

/-! ## The whole run -/

/-- What becomes of a source: its query and plan with the programs of all built-in renderers, or the
report of its error. -/
def outcome (known : OrderedSet String) (config : ReportConfig) (filename : Option String)
    (source : String) : Except String (Query × Plan × List String) :=
  match planSource known source with
  | .ok (query, plan) =>
    .ok (query, plan, Registry.builtin.renderers.map fun renderer => renderer.render plan)
  | .error error => .error (((error.diagnostic source).withFilename filename).report config)

/-- What becomes of a source, with every operation checked. -/
def outcome? (known : OrderedSet String) (config : ReportConfig) (filename : Option String)
    (source : String) : Option (Except String (Query × Plan × List String)) := do
  let parsed ← Query.parse? source
  let planned : Except CompileError (Query × Plan) := do
    let query ← parsed.mapError .reading
    let plan ← (Plan.ofQuery known query).mapError .planning
    return (query, plan)
  match planned with
  | .ok (query, plan) =>
    return .ok (query, plan, Registry.builtin.renderers.map fun renderer => renderer.render plan)
  | .error error =>
    let report ← ((error.diagnostic source).withFilename filename).report? config
    return .error report

/-- **No operation fails on any source of less than `2 ^ 32` bytes**, whatever the registry, the
configuration of the reports and the name of the file, as long as the number of context lines stays
away from the largest count. The checked run gives what the program gives; the names of the source
are those that slicing off the backticks leaves; and the lines of an error can be cut out too, which
no report shows. -/
theorem outcome?_eq_outcome (registry : Registry) (config : ReportConfig)
    (filename : Option String) (source : String) (hsize : endOf source < 2 ^ 32)
    (hradius : config.contextLines < 2 ^ 64 - 2 ^ 32) :
    outcome? registry.names config filename source =
        some (outcome registry.names config filename source) ∧
      (∀ token ∈ scan source, ∀ name, token.name? = some name →
        token.unquoted? = some name.text.toList) ∧
      ∀ error, planSource registry.names source = .error error →
        ∀ e ∈ ((error.diagnostic source).withFilename filename).excerpt, e.line? = some e.line := by
  refine ⟨?_, fun token htoken name hname => ?_, fun error herror e he => ?_⟩
  · have hplanned : (do
        let query ← (Query.parse source).mapError CompileError.reading
        let plan ← (Plan.ofQuery registry.names query).mapError CompileError.planning
        return (query, plan)) = planSource registry.names source := rfl
    simp only [outcome?, Query.parse?_eq hsize, Option.bind_eq_bind, Option.bind_some, hplanned,
      outcome]
    cases hplan : planSource registry.names source with
    | ok planned => rfl
    | error error =>
      have hreport := Diagnostic.report?_eq (sound_of_planSource hsize hplan filename) hradius
      simp only [hreport, Option.bind_some]
      rfl
  · exact Token.unquoted?_of_name? (formed_of_mem_scan htoken) hname
  · exact (sound_of_planSource hsize herror filename e he).line?_eq

/-- A source of two lines, the first with a character of two bytes. The parenthesis on the second
line is never closed. -/
def openParenSource : String := "SELECT `µ`\nFROM board WHERE (din1 = 1"

/-- The parenthesis is shown with the line above it, its place counted in characters. -/
theorem outcome?_openParenSource :
    endOf openParenSource < 2 ^ 32 ∧ 1 < 2 ^ 64 - 2 ^ 32 ∧
      outcome? Registry.builtin.names ⟨true, true, 1, false⟩ none openParenSource =
        some (.error ("Error: SyntaxError [E2006]: Unclosed parenthesis\n  |\n"
          ++ "  | Message: Unclosed delimiter, expected ')'\n  |\n"
          ++ "  +--> Location: line 2:18\n  |\n"
          ++ "  |    1 | SELECT `µ`\n"
          ++ "  |    2 | FROM board WHERE (din1 = 1\n"
          ++ "  |      |                  ^\n"
          ++ "  |      +-- Here: Error at '('\n  |\n"
          ++ "  +--> Suggestion: Add the missing ')'\n")) := by
  have hsize : endOf openParenSource < 2 ^ 32 := by decide +kernel
  have hradius : 1 < 2 ^ 64 - 2 ^ 32 := by decide
  have hparse : Query.parse openParenSource =
      .error ⟨.unclosedParen ⟨29, 30⟩, .empty 38⟩ := by decide +kernel
  have hplan : planSource Registry.builtin.names openParenSource =
      .error (.reading ⟨.unclosedParen ⟨29, 30⟩, .empty 38⟩) :=
    planSource_eq_error_iff.2 (.inl ⟨_, hparse, rfl⟩)
  obtain ⟨houtcome, -, -⟩ :=
    outcome?_eq_outcome Registry.builtin ⟨true, true, 1, false⟩ none openParenSource hsize hradius
  refine ⟨hsize, hradius, ?_⟩
  rw [houtcome, outcome, hplan]
  decide +kernel

end PinQuery
