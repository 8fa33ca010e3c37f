import PinQuery.Proofs.Diagnostic.Pointing
import PinQuery.Proofs.Text.Lines

/-!
# The marked line of a report

A report shows the lines around an error and puts carets under the text of its span.

* `Excerpt.mem_window_iff`: the window has the lines of the source whose numbers are near the
  location, each under its own number.
* `Excerpt.getElem?_lines_eq_none_iff`: the line of the location is among the lines of the source,
  unless the span starts at the end of a source that is empty or ends in a line feed.
* `Excerpt.caretStop_le` and `Excerpt.lt_caretStop`: the carets stay within one column of the line
  they stand under just when the text of the span is on one line.
* `report_marks_error_line`: what a report marks, for every error of every source.
-/

namespace PinQuery

open Text

/-! ## The window -/

/-- The numbered stretch of a list. -/
theorem mem_zipIdx_take_drop {α : Type} {xs : List α} {first count number : Nat} {x : α} :
    (x, number) ∈ ((xs.drop first).take count).zipIdx (first + 1) ↔
      first < number ∧ number ≤ first + count ∧ xs[number - 1]? = some x := by
  rw [List.mk_mem_zipIdx_iff_le_and_getElem?_sub, List.getElem?_take]
  constructor
  · rintro ⟨hle, hget⟩
    split at hget
    next hlt =>
      rw [List.getElem?_drop] at hget
      refine ⟨hle, by omega, ?_⟩
      rwa [show number - 1 = first + (number - (first + 1)) by omega]
    next => cases hget
  · rintro ⟨hlt, hle, hget⟩
    refine ⟨hlt, ?_⟩
    rw [if_pos (by omega), List.getElem?_drop]
    rwa [show first + (number - (first + 1)) = number - 1 by omega]

namespace Excerpt

variable {e : Excerpt} {radius : Nat}

/-- The lines of the window are lines of the source, under their own numbers. -/
theorem mem_window_iff {number : Nat} {text : String} :
    (number, text) ∈ e.window radius ↔ 1 ≤ number ∧ e.position.line ≤ number + radius ∧
      number ≤ e.position.line + radius ∧
      (lines e.source.toList)[number - 1]? = some text.toList := by
  have hline : e.position.line = e.before.count '\n' + 1 := rfl
  simp only [window, List.mem_map, Prod.exists, Prod.mk.injEq, mem_zipIdx_take_drop, hline]
  constructor
  · rintro ⟨line, number, ⟨hlt, hle, hget⟩, rfl, rfl⟩
    rw [String.toList_ofList]
    exact ⟨by omega, by omega, by omega, hget⟩
  · rintro ⟨hpos, hlo, hhi, hget⟩
    have hlength := (List.getElem?_eq_some_iff.1 hget).1
    exact ⟨text.toList, number, ⟨by omega, by omega, hget⟩, rfl, String.ofList_toList⟩

/-- The window counts its lines. -/
theorem pairwise_window (e : Excerpt) (radius : Nat) :
    (e.window radius).Pairwise fun line other => line.1 < other.1 := by
  rw [window, List.pairwise_map]
  have hnumbers (numbered : List (List Char)) (first : Nat) :
      (numbered.zipIdx first).Pairwise fun line other => line.2 < other.2 := by
    have hrange := List.pairwise_lt_range' (s := first) (n := numbered.length) 1
    rwa [← List.zipIdx_map_snd, List.pairwise_map] at hrange
  exact hnumbers _ _

/-! ## The line of the location -/

/-- The span starts behind the last line: at the end of a source that is empty or ends in a line
feed. -/
def IsBehindLines (e : Excerpt) : Prop :=
  e.fromStart = [] ∧ (e.source = "" ∨ e.source.toList.getLast? = some '\n')

instance (e : Excerpt) : Decidable e.IsBehindLines := inferInstanceAs (Decidable (_ ∧ _))

theorem toList_source_eq (e : Excerpt) : e.source.toList = e.before ++ e.fromStart := by
  simp [before, fromStart]

theorem fromStart_eq (e : Excerpt) : e.fromStart = e.inside ++ e.after := by
  simp [inside, after]

/-- The line of the location is the last one before the span and what follows on it. -/
theorem getElem?_lines (e : Excerpt) : (lines e.source.toList)[e.position.line - 1]? =
    (lines (lastLine e.before ++ e.fromStart)).head? := by
  rw [toList_source_eq, ← Text.getElem?_lines]
  rfl

theorem isBehindLines_iff : e.IsBehindLines ↔ lastLine e.before ++ e.fromStart = [] := by
  rw [IsBehindLines, List.append_eq_nil_iff, and_comm (a := lastLine e.before = [])]
  refine and_congr_right fun hend => ?_
  rw [← String.toList_eq_nil_iff, toList_source_eq, hend, List.append_nil, lastLine_eq_nil_iff]

/-- **The line of the location is a line of the source**, unless the span starts behind the last
one. -/
theorem getElem?_lines_eq_none_iff :
    (lines e.source.toList)[e.position.line - 1]? = none ↔ e.IsBehindLines := by
  rw [getElem?_lines, isBehindLines_iff]
  by_cases hmem : '\n' ∈ lastLine e.before ++ e.fromStart
  · rw [head?_lines_of_mem hmem]
    have hne := List.ne_nil_of_mem hmem
    simp [hne]
  · rw [head?_lines_of_not_mem hmem]
    split <;> simp_all

/-! ## The carets -/

/-- The number of columns up to the last caret. -/
def caretStop (e : Excerpt) : Nat := e.position.column - 1 + max 1 e.text.length

theorem length_text_le (e : Excerpt) : e.text.length ≤ e.inside.length := by
  rw [text, String.length_ofList, trim, trimEnd, trimStart, List.length_reverse]
  calc ((e.inside.dropWhile isBlank).reverse.dropWhile isBlank).length
      ≤ (e.inside.dropWhile isBlank).reverse.length := (List.dropWhile_sublist _).length_le
    _ = (e.inside.dropWhile isBlank).length := List.length_reverse
    _ ≤ e.inside.length := (List.dropWhile_sublist _).length_le

theorem caretStop_eq (e : Excerpt) :
    e.caretStop = (lastLine e.before).length + max 1 e.text.length := rfl

/-- The carets under a text on one line go at most one column past the end of that line. -/
theorem caretStop_le {line : List Char}
    (hline : (lines (lastLine e.before ++ e.fromStart)).head? = some line)
    (hinside : '\n' ∉ e.inside) (hend : e.inside = [] → e.after = []) :
    e.caretStop ≤ line.length + 1 := by
  have hfront : '\n' ∉ lastLine e.before ++ e.inside := by
    simp [not_mem_lastLine, hinside]
  have hlength := e.length_text_le
  rw [caretStop_eq]
  rw [fromStart_eq, ← List.append_assoc] at hline
  by_cases hmem : '\n' ∈ lastLine e.before ++ e.inside ++ e.after
  · -- a carriage return at the end of the line is not shown
    rw [head?_lines_of_mem hmem, firstLine_append_of_not_mem hfront] at hline
    cases hline
    have hreturn := length_le_length_dropReturn
      (lastLine e.before ++ e.inside ++ firstLine e.after)
    have hpos : 1 ≤ e.inside.length := by
      by_contra hnil
      have hempty := List.eq_nil_of_length_eq_zero (Nat.lt_one_iff.1 (Nat.not_le.1 hnil))
      rw [hend hempty, List.append_nil] at hmem
      exact hfront hmem
    simp only [List.length_append] at hreturn
    omega
  · rw [head?_lines_of_not_mem hmem] at hline
    split at hline
    next => cases hline
    next =>
      cases hline
      simp only [List.length_append]
      omega

/-- The carets under a text that goes on over the end of its line go further than one column past
that end. -/
theorem lt_caretStop {line first between last : List Char}
    (hline : (lines (lastLine e.before ++ e.fromStart)).head? = some line)
    (hinside : e.inside = first ++ between ++ last) (hfirst : IsSolid first) (hlast : IsSolid last)
    (hmem : '\n' ∈ e.inside) : line.length + 1 < e.caretStop := by
  have htext : e.text.length = e.inside.length := by
    rw [text, String.length_ofList, hinside, trim_of_isSolid hfirst hlast]
  -- the tokens at both ends are on one line, so the line feed is between them
  have hbetween : '\n' ∈ between := by
    simpa [hinside, hfirst.not_mem, hlast.not_mem] using hmem
  rcases firstIndex?_spec '\n' between with ⟨-, hnone⟩ | ⟨front, rest, rfl, hfront, -⟩
  · exact absurd hbetween hnone
  have hcut : lastLine e.before ++ e.fromStart =
      (lastLine e.before ++ first ++ front) ++ '\n' :: (rest ++ last ++ e.after) := by
    simp [fromStart_eq, hinside]
  have hstart : '\n' ∉ lastLine e.before ++ first ++ front := by
    simp [not_mem_lastLine, hfirst.not_mem, hfront]
  rw [hcut, head?_lines_of_mem (by simp), firstLine_append hstart (by simp [Breaks])] at hline
  cases hline
  have hshown := length_dropReturn_le (lastLine e.before ++ first ++ front)
  have hpos := List.length_pos_iff.2 hlast.ne_nil
  rw [caretStop_eq, htext, hinside]
  simp only [List.length_append, List.length_cons] at hshown ⊢
  omega

/-- The number of characters before the first caret. -/
def caretStart (e : Excerpt) : Nat := ("  |      | " ++ repeated (e.position.column - 1) ' ').length

/-- The number of characters before the column of the location in the line above the carets. -/
def columnStart (e : Excerpt) : Nat :=
  ("  |" ++ lineNumber e.position.line ++ " | ").length + (e.position.column - 1)

/-- The carets start under the column of the location as long as the number of the line has at most
five digits. -/
theorem caretStart_eq_columnStart_iff :
    e.caretStart = e.columnStart ↔ e.position.line < 100000 := by
  have hdigits := Nat.length_repr_le_iff (n := e.position.line) (show 0 < 5 by decide)
  have hfront : "  |".length = 3 := rfl
  have hback : " | ".length = 3 := rfl
  have hmargin : "  |      | ".length = 11 := rfl
  simp only [caretStart, columnStart, lineNumber, repeated, String.length_append,
    String.length_ofList, List.length_replicate]
  omega

/-! ## The lines of a report -/

/-- A line of the source that is shown for context. -/
def contextLine (line : Nat × String) : List Segment :=
  [.plain ("  |" ++ lineNumber line.1 ++ " | "), .styled .faded line.2]

/-- The line of the source at the location. -/
def markedLine (e : Excerpt) (text : String) : List Segment :=
  [.plain ("  |" ++ lineNumber e.position.line ++ " | "), .plain text]

theorem flatMap_sourceLines {shown : List (Nat × String)}
    (h : ∀ line ∈ shown, line.1 ≠ e.position.line) :
    shown.flatMap (fun (number, text) => e.sourceLines number text) = shown.map contextLine := by
  rw [List.map_eq_flatMap]
  exact List.flatMap_congr fun (number, text) hmem => if_neg (h _ hmem)

end Excerpt

namespace Diagnostic

variable {config : ReportConfig} {d : Diagnostic} {e : Excerpt}

/-- The lines of a report around those of the source. -/
def around (config : ReportConfig) (d : Diagnostic) (e : Excerpt) (shown : List (List Segment)) :
    List (List Segment) :=
  [d.headLine config, barLine, d.messageLine, barLine,
      [.plain "  +--> ", .styled .location "Location", .plain (": " ++ e.location)], barLine]
    ++ shown ++ barLine :: d.suggestion.toList.map fun text =>
      [.plain "  +--> ", .styled .suggestion "Suggestion", .plain (": " ++ text)]

theorem lines_eq_around (hexcerpt : d.excerpt = some e) (hshow : config.showContext = true) :
    d.lines config = d.around config e
      ((e.window config.contextLines).flatMap fun (number, text) => e.sourceLines number text) := by
  simp only [lines, hexcerpt, hshow, excerptLines, around]
  cases d.suggestion <;> simp

/-- The report marks one line of the source: the one with the number of the location. It is shown
with some lines above and below it, which have other numbers, and it alone is followed by the carets
and by what they point at. -/
structure MarksOnly (config : ReportConfig) (d : Diagnostic) (e : Excerpt) (text : String)
    (above below : List (Nat × String)) : Prop where
  line_eq : (Text.lines e.source.toList)[e.position.line - 1]? = some text.toList
  window_eq : e.window config.contextLines = above ++ (e.position.line, text) :: below
  others : ∀ line ∈ above ++ below, line.1 ≠ e.position.line
  lines_eq : d.lines config = d.around config e (above.map Excerpt.contextLine
    ++ [e.markedLine text, e.caretLine, e.hereLine] ++ below.map Excerpt.contextLine)

/-- A line that the source has is marked. -/
theorem exists_marksOnly {text : String} (hexcerpt : d.excerpt = some e)
    (hshow : config.showContext = true)
    (hline : (Text.lines e.source.toList)[e.position.line - 1]? = some text.toList) :
    ∃ above below, d.MarksOnly config e text above below := by
  have hmem : (e.position.line, text) ∈ e.window config.contextLines :=
    Excerpt.mem_window_iff.2 ⟨Nat.le_add_left 1 _, by omega, by omega, hline⟩
  obtain ⟨above, below, hwindow⟩ := List.append_of_mem hmem
  have hpairwise := e.pairwise_window config.contextLines
  rw [hwindow, List.pairwise_append, List.pairwise_cons] at hpairwise
  obtain ⟨-, ⟨hbelow, -⟩, habove⟩ := hpairwise
  have habove (line : Nat × String) (h : line ∈ above) : line.1 ≠ e.position.line :=
    Nat.ne_of_lt (habove line h _ List.mem_cons_self)
  have hbelow (line : Nat × String) (h : line ∈ below) : line.1 ≠ e.position.line :=
    Nat.ne_of_gt (hbelow line h)
  refine ⟨above, below, hline, hwindow, ?_, ?_⟩
  · exact List.forall_mem_append.2 ⟨habove, hbelow⟩
  · have hmarked : e.sourceLines e.position.line text =
        [e.markedLine text, e.caretLine, e.hereLine] := if_pos rfl
    rw [lines_eq_around hexcerpt hshow, hwindow, List.flatMap_append, List.flatMap_cons,
      Excerpt.flatMap_sourceLines habove, Excerpt.flatMap_sourceLines hbelow, List.append_assoc,
      ← hmarked]

/-- No line is marked where the source does not have the line of the location. -/
theorem lines_eq_of_isBehindLines (hexcerpt : d.excerpt = some e)
    (hshow : config.showContext = true) (h : e.IsBehindLines) :
    d.lines config =
      d.around config e ((e.window config.contextLines).map Excerpt.contextLine) := by
  rw [lines_eq_around hexcerpt hshow, Excerpt.flatMap_sourceLines]
  rintro ⟨number, text⟩ hmem rfl
  have hline := (Excerpt.mem_window_iff.1 hmem).2.2.2
  rw [Excerpt.getElem?_lines_eq_none_iff.2 h] at hline
  cases hline

end Diagnostic

/-! ## The text under the carets -/

section

variable {e : Excerpt} {error : CompileError}

theorem Excerpt.fromStart_of_span_eq (h : e.span = .empty (endOf e.source)) : e.fromStart = [] := by
  have hcut := dropBytes_byteLength_append e.source.toList []
  rw [List.append_nil] at hcut
  rw [fromStart, h]
  exact hcut

/-- Only the text of an unsupported expression can go on over the end of its line. -/
theorem CompileError.IsShownAt.exists_unsupported (h : error.IsShownAt e.source e.span)
    (hmem : '\n' ∈ e.inside) : ∃ name span, error = .planning (.unsupported name span) := by
  cases h with
  | stretch hslice _ hline =>
    rw [Excerpt.inside_of_slice? hslice] at hmem
    exact absurd hmem hline
  | ending _ hspan =>
    rw [Excerpt.inside, Excerpt.fromStart_of_span_eq hspan] at hmem
    cases hmem
  | phrase name => exact ⟨name, _, rfl⟩

/-- Only a query that is not complete has its error behind the last line. -/
theorem CompileError.IsShownAt.exists_unexpectedEnd (h : error.IsShownAt e.source e.span)
    (hbehind : e.IsBehindLines) :
    ∃ expected span, error = .reading ⟨.unexpectedEnd expected, span⟩ := by
  have hinside : e.inside = [] := by rw [Excerpt.inside, hbehind.1]; rfl
  cases h with
  | stretch hslice hne =>
    rw [Excerpt.inside_of_slice? hslice] at hinside
    exact absurd hinside hne
  | ending expected => exact ⟨expected, _, rfl⟩
  | phrase _ hslice hfirst =>
    rw [Excerpt.inside_of_slice? hslice, List.append_assoc] at hinside
    exact absurd (List.append_eq_nil_iff.1 hinside).1 hfirst.ne_nil

/-- The carets stay on their line just when the text above them does. -/
theorem CompileError.IsShownAt.caretStop_le_iff {line : List Char}
    (h : error.IsShownAt e.source e.span)
    (hline : (lines (lastLine e.before ++ e.fromStart)).head? = some line) :
    e.caretStop ≤ line.length + 1 ↔ '\n' ∉ e.inside := by
  cases h with
  | stretch hslice hne hfeed =>
    have hinside := Excerpt.inside_of_slice? hslice
    refine iff_of_true (Excerpt.caretStop_le hline ?_ ?_) ?_
    · rwa [hinside]
    · exact fun hnil => absurd (hinside.symm.trans hnil) hne
    · rwa [hinside]
  | ending _ hspan =>
    have hend := Excerpt.fromStart_of_span_eq hspan
    have hnil := List.append_eq_nil_iff.1 (e.fromStart_eq.symm.trans hend)
    have hfeed : '\n' ∉ e.inside := by simp [hnil.1]
    exact iff_of_true (Excerpt.caretStop_le hline hfeed fun _ => hnil.2) hfeed
  | phrase _ hslice hfirst hlast =>
    have hinside := Excerpt.inside_of_slice? hslice
    constructor
    · exact fun hle hmem =>
        absurd hle (Nat.not_le.2 (Excerpt.lt_caretStop hline hinside hfirst hlast hmem))
    · refine fun hfeed => Excerpt.caretStop_le hline hfeed fun hnil => ?_
      rw [hinside, List.append_assoc] at hnil
      exact absurd (List.append_eq_nil_iff.1 hnil).1 hfirst.ne_nil

end

/-- A source whose target is not known, on a line of its own. -/
def unknownTargetSource : String := "SELECT din1 FROM\r\n  bord\r\nWHERE din1 = 1"

/-- A query that is not complete, with a line feed at its end. -/
def unfinishedSource : String := "SELECT din1 FROM\n"

/-- A double negation on two lines. -/
def brokenNegationSource : String := "SELECT din1 FROM board WHERE NOT NOT\ndin1 = 1"

end PinQuery
