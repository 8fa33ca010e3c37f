import Mathlib.Data.List.DropRight
import PinQuery.Proofs.Diagnostic.Marking
import PinQuery.Proofs.Token.Longest
import PinQuery.Target.Basic

/-!
# Carets under the text of an error

The span of an error counts bytes, its column counts characters, the line that is shown may have
lost a carriage return, and the text that the error names is trimmed. The carets still stand under
that text.

* `Scan.trim_isPrefix_of_mem_pieces`: what is trimmed off a piece is at its end, or it is all of it.
* `Excerpt.text_isPrefix_drop`: the shown line goes on with the text of a piece at its column.
* `Excerpt.getElem?_caretText_eq_some_iff`: the columns of the carets.
* `IsMark`: the look of the carets and of the line below them, which no other line of a report has
  (`Diagnostic.not_isMark_numberedText` and its siblings).
* `carets_under_error_text`: where the carets are, for every error at a name or at a token.
-/

namespace PinQuery

open Text

/-! ## Trimmed texts -/

namespace Text

theorem trim_isPrefix_of_head {c : Char} {cs : List Char} (h : isBlank c = false) :
    trim (c :: cs) <+: c :: cs := by
  have hstart : trimStart (c :: cs) = c :: cs := List.dropWhile_cons_of_neg (by simp [h])
  rw [trim, hstart]
  exact List.rdropWhile_prefix isBlank (c :: cs)

/-- A trimmed text does not end in a carriage return. -/
theorem getLast?_trim_ne (cs : List Char) : (trim cs).getLast? ≠ some '\r' := by
  intro hlast
  have hne : trim cs ≠ [] := fun hnil => by simp [hnil] at hlast
  have hreturn := (List.getLast_eq_iff_getLast?_eq_some hne).2 hlast
  have hblank : ¬isBlank ((trim cs).getLast hne) :=
    List.rdropWhile_last_not isBlank (trimStart cs) hne
  rw [hreturn] at hblank
  exact hblank (by decide)

/-- What does not end in a carriage return is still there when that of its line is dropped. -/
theorem isPrefix_dropReturn {front line : List Char} (h : front <+: line)
    (hlast : front.getLast? ≠ some '\r') : front <+: dropReturn line := by
  unfold dropReturn
  split
  next hreturn =>
    obtain ⟨rest, rfl⟩ := h
    rcases List.eq_nil_or_concat rest with rfl | ⟨rest, c, rfl⟩
    · rw [List.append_nil] at hreturn
      exact absurd (beq_iff_eq.1 hreturn) hlast
    · rw [List.concat_eq_append, ← List.append_assoc, List.dropLast_concat]
      exact List.prefix_append front rest
  next => exact h

end Text

namespace Scan

/-- Where no token begins, one character is taken, or everything behind an open backtick. -/
theorem eq_backtick_or_eq_zero {c : Char} {cs : List Char} {more : Nat}
    (h : lexeme c cs = (none, more)) : c = '\x60' ∨ more = 0 := by
  unfold lexeme at h
  grind

/-- **A trimmed piece is its own beginning.** A piece starts with a character that is not blank, or
it is a single blank character where no token begins. -/
theorem trim_isPrefix_of_mem_pieces {source : String} {piece : Piece} (h : piece ∈ pieces source) :
    trim piece.text.toList <+: piece.text.toList := by
  obtain ⟨before, c, tail, rest, htaken⟩ := exists_isTakenAt h
  rw [htaken.text_eq]
  cases hblank : isBlank c with
  | false => exact trim_isPrefix_of_head hblank
  | true =>
    have hlexeme := htaken.lexeme_eq
    cases hkind : piece.kind with
    | some kind =>
      rw [hkind] at hlexeme
      obtain ⟨_, _, hcons, hsolid⟩ := (isLexeme_of_lexeme hlexeme).isSolid.head
      obtain ⟨rfl, -⟩ := List.cons.inj hcons
      rw [hblank] at hsolid
      cases hsolid
    | none =>
      rw [hkind] at hlexeme
      rcases eq_backtick_or_eq_zero hlexeme with rfl | hmore
      · exact absurd hblank (by decide)
      · rw [List.eq_nil_of_length_eq_zero hmore]
        have htrim : trim [c] = [] := by simp [trim, trimStart, trimEnd, hblank]
        rw [htrim]
        exact List.nil_prefix

end Scan

/-! ## The shown line -/

namespace Excerpt

variable {e : Excerpt}

/-- **The shown line has the text of a piece at its column.** -/
theorem text_isPrefix_drop {line : List Char}
    (hline : (lines (lastLine e.before ++ e.fromStart)).head? = some line)
    (hinside : '\n' ∉ e.inside) (htrim : trim e.inside <+: e.inside) (hne : e.text ≠ "") :
    e.text.toList <+: line.drop (e.position.column - 1) := by
  have htext : e.text.toList = trim e.inside := String.toList_ofList
  have hfront : '\n' ∉ lastLine e.before ++ e.inside := by simp [not_mem_lastLine, hinside]
  -- the text stands behind what is before it on its line, and a carriage return is not its end
  have hstarts (rest : List Char) :
      lastLine e.before ++ trim e.inside <+: lastLine e.before ++ e.inside ++ rest := by
    rw [List.append_assoc]
    exact (List.prefix_append_right_inj _).2 (htrim.trans (List.prefix_append _ rest))
  have hlast : (lastLine e.before ++ trim e.inside).getLast? ≠ some '\r' := by
    have hnil : trim e.inside ≠ [] := by
      rw [← htext]
      exact mt String.toList_eq_nil_iff.1 hne
    rw [List.getLast?_append_of_ne_nil _ hnil]
    exact getLast?_trim_ne e.inside
  have hshown : lastLine e.before ++ trim e.inside <+: line := by
    rw [fromStart_eq, ← List.append_assoc] at hline
    by_cases hmem : '\n' ∈ lastLine e.before ++ e.inside ++ e.after
    · rw [head?_lines_of_mem hmem, firstLine_append_of_not_mem hfront] at hline
      cases hline
      exact isPrefix_dropReturn (hstarts _) hlast
    · rw [head?_lines_of_not_mem hmem] at hline
      split at hline
      next => cases hline
      next =>
        cases hline
        exact hstarts _
  obtain ⟨rest, rfl⟩ := hshown
  have hcolumn : e.position.column - 1 = (lastLine e.before).length := rfl
  rw [htext, hcolumn, List.append_assoc, List.drop_left]
  exact List.prefix_append _ rest

/-- The line of a piece is shown, and it has the text of the piece at its column. -/
theorem exists_line_of_mem_pieces {piece : Scan.Piece} (hpiece : piece ∈ Scan.pieces e.source)
    (hspan : piece.span = e.span) :
    ∃ text : String, (lines e.source.toList)[e.position.line - 1]? = some text.toList ∧
      (e.text ≠ "" → e.text.toList <+: text.toList.drop (e.position.column - 1)) := by
  have hinside : e.inside = piece.text.toList := by
    have hslice := Scan.slice?_of_mem_pieces hpiece
    rw [hspan] at hslice
    exact inside_of_slice? hslice
  have hfeed : '\n' ∉ e.inside := by
    rw [hinside]
    exact Scan.newline_not_mem_of_mem_piecesFrom 0 e.source.toList piece hpiece
  have htrim : trim e.inside <+: e.inside := by
    rw [hinside]
    exact Scan.trim_isPrefix_of_mem_pieces hpiece
  have hshown : ¬e.IsBehindLines := by
    intro hbehind
    have hne := Scan.ne_nil_of_mem_pieces hpiece
    rw [← hinside, inside, hbehind.1] at hne
    exact hne rfl
  obtain ⟨line, hline⟩ := Option.ne_none_iff_exists'.1 (mt getElem?_lines_eq_none_iff.1 hshown)
  refine ⟨String.ofList line, ?_, fun hne => ?_⟩
  · rw [hline, String.toList_ofList]
  · rw [String.toList_ofList]
    exact text_isPrefix_drop (e.getElem?_lines.symm.trans hline) hfeed htrim hne

/-! ## The columns of the carets -/

/-- What stands before a line of the source in a report. -/
def margin (e : Excerpt) : String := "  |" ++ lineNumber e.position.line ++ " | "

/-- The line of carets as a text. -/
def caretText (e : Excerpt) : String :=
  "  |      | " ++ repeated (e.position.column - 1) ' ' ++ repeated (max 1 e.text.length) '^'

/-- **The columns of the carets.** -/
theorem getElem?_caretText_eq_some_iff {column : Nat} :
    e.caretText.toList[column]? = some '^' ↔
      e.caretStart ≤ column ∧ column < e.caretStart + max 1 e.text.length := by
  have hfront : '^' ∉ ("  |      | " ++ repeated (e.position.column - 1) ' ').toList := by
    simp [repeated, List.mem_replicate]
  have hstart : ("  |      | " ++ repeated (e.position.column - 1) ' ').length = e.caretStart := rfl
  rw [caretText, String.toList_append, List.getElem?_append, String.length_toList, hstart]
  split
  next hlt =>
    refine iff_of_false (fun hget => hfront (List.mem_of_getElem? hget)) ?_
    omega
  next hle =>
    rw [repeated, String.toList_ofList, List.getElem?_replicate]
    split <;> simp <;> omega

end Excerpt

/-! ## The lines of a report -/

/-- A line of a report without colours. -/
def Segment.joined (line : List Segment) : String := String.join (line.map Segment.text)

/-- A line like those of the carets, with blanks where the lines of the source have a number. -/
def IsMark (line : String) : Prop := "  |      ".toList <+: line.toList

instance (line : String) : Decidable (IsMark line) := inferInstanceAs (Decidable (_ <+: _))

theorem Excerpt.isMark_caretText (e : Excerpt) : IsMark e.caretText := by
  simp [IsMark, Excerpt.caretText]

/-- A line that begins otherwise is no mark. -/
theorem not_isMark_of_isPrefix (front : String) {line : String} (h : front.toList <+: line.toList)
    (hlong : ¬IsMark front) (hshort : ¬front.toList <+: "  |      ".toList) : ¬IsMark line :=
  fun hmark => (List.prefix_or_prefix_of_prefix hmark h).elim hlong hshort

/-- A number takes one of the first five columns at least. -/
theorem not_isPrefix_lineNumber (number : Nat) (rest : List Char) :
    ¬List.replicate 6 ' ' <+: (lineNumber number).toList ++ rest := by
  have hne : number.repr.toList ≠ [] := mt String.toList_eq_nil_iff.1 Nat.repr_ne_empty
  obtain ⟨digit, digits, hdigits⟩ := List.exists_cons_of_ne_nil hne
  have hlength : 0 < number.repr.length := by
    rw [← String.length_toList, hdigits]
    exact Nat.succ_pos _
  have htext : (lineNumber number).toList ++ rest =
      List.replicate (5 - number.repr.length) ' ' ++ digit :: (digits ++ rest) := by
    simp [lineNumber, hdigits]
  have hdigit : digit.isDigit = true := by
    have hmem : digit ∈ Nat.toDigits 10 number := by simp [← Nat.toList_repr, hdigits]
    exact Nat.isDigit_of_mem_toDigits (by decide) (by decide) hmem
  intro hblanks
  have hget := List.prefix_iff_getElem?.1 hblanks (5 - number.repr.length)
    (by rw [List.length_replicate]; omega)
  rw [htext, List.getElem?_append_right (by simp), List.length_replicate, Nat.sub_self,
    List.getElem?_cons_zero, List.getElem_replicate] at hget
  cases hget
  exact absurd hdigit (by decide)

namespace Diagnostic

variable {config : ReportConfig} {d : Diagnostic} {e : Excerpt}

theorem report_eq_unlines (h : config.colours = false) :
    d.report config = unlines ((d.lines config).map Segment.joined) := by
  have hwrite (s : Segment) : s.write false = s.text := by
    cases hstyle : s.style <;> simp [Segment.write, hstyle]
  rw [report, unlines, h, List.map_map]
  congr 1
  refine List.map_congr_left fun line _ => ?_
  simp [Segment.writeLine, Segment.joined, funext hwrite]

/-- The lines above those of the source. -/
def textsAbove (config : ReportConfig) (d : Diagnostic) (e : Excerpt) : List String :=
  [Segment.joined (d.headLine config), "  |", Segment.joined d.messageLine, "  |",
    "  +--> Location: " ++ e.location, "  |"]

/-- The lines below those of the source. -/
def textsBelow (d : Diagnostic) : List String :=
  "  |" :: d.suggestion.toList.map fun text => "  +--> Suggestion: " ++ text

theorem map_joined_around (shown : List (List Segment)) :
    (d.around config e shown).map Segment.joined =
      d.textsAbove config e ++ shown.map Segment.joined ++ d.textsBelow := by
  have hbar : Segment.joined barLine = "  |" := by decide
  have hlocation : Segment.joined
      [.plain "  +--> ", .styled .location "Location", .plain (": " ++ e.location)] =
        "  +--> Location: " ++ e.location := by
    rw [← String.toList_inj]
    simp [Segment.joined, Segment.plain, Segment.styled]
  have hsuggestion (text : String) : Segment.joined
      [.plain "  +--> ", .styled .suggestion "Suggestion", .plain (": " ++ text)] =
        "  +--> Suggestion: " ++ text := by
    rw [← String.toList_inj]
    simp [Segment.joined, Segment.plain, Segment.styled]
  simp [around, textsAbove, textsBelow, hbar, hlocation, hsuggestion, Function.comp_def]

/-- A line of the source under its number. -/
def numberedText (line : Nat × String) : String := "  |" ++ lineNumber line.1 ++ " | " ++ line.2

theorem not_isMark_numberedText (line : Nat × String) : ¬IsMark (numberedText line) := by
  intro hmark
  refine not_isPrefix_lineNumber line.1 (" | " ++ line.2).toList ?_
  simpa [IsMark, numberedText] using hmark

theorem not_isMark_of_mem_textsAbove {line : String} (h : line ∈ d.textsAbove config e) :
    ¬IsMark line := by
  simp only [textsAbove, List.mem_cons, List.not_mem_nil, or_false] at h
  rcases h with rfl | rfl | rfl | rfl | rfl | rfl
  · refine not_isMark_of_isPrefix "Error" ?_ (by decide) (by decide)
    simp [Segment.joined, headLine, Segment.styled]
  · decide
  · refine not_isMark_of_isPrefix "  | Message" ?_ (by decide) (by decide)
    simp [Segment.joined, messageLine, barLine, Segment.plain, Segment.styled]
  · decide
  · refine not_isMark_of_isPrefix "  +--> Location" ?_ (by decide) (by decide)
    simp
  · decide

theorem not_isMark_of_mem_textsBelow {line : String} (h : line ∈ d.textsBelow) :
    ¬IsMark line := by
  rcases List.mem_cons.1 h with rfl | h
  · decide
  · obtain ⟨text, -, rfl⟩ := List.mem_map.1 h
    refine not_isMark_of_isPrefix "  +--> Suggestion" ?_ (by decide) (by decide)
    simp

/-- The lines of a report that marks a line. -/
theorem MarksOnly.texts_eq {text : String} {above below : List (Nat × String)}
    (h : d.MarksOnly config e text above below) :
    (d.lines config).map Segment.joined = d.textsAbove config e ++ above.map numberedText
      ++ [e.margin ++ text, e.caretText, "  |      +-- Here: " ++ e.pointer]
      ++ (below.map numberedText ++ d.textsBelow) := by
  have hcontext : Segment.joined ∘ Excerpt.contextLine = numberedText := by
    funext line
    rw [← String.toList_inj]
    simp [Segment.joined, Excerpt.contextLine, numberedText, Segment.plain, Segment.styled]
  have hmarked : Segment.joined (e.markedLine text) = e.margin ++ text := by
    rw [← String.toList_inj]
    simp [Segment.joined, Excerpt.markedLine, Excerpt.margin, Segment.plain]
  have hcarets : Segment.joined e.caretLine = e.caretText := by
    rw [← String.toList_inj]
    simp [Segment.joined, Excerpt.caretLine, Excerpt.caretText, Segment.plain, Segment.styled]
  have hhere : Segment.joined e.hereLine = "  |      +-- Here: " ++ e.pointer := by
    rw [← String.toList_inj]
    simp [Segment.joined, Excerpt.hereLine, Segment.plain, Segment.styled]
  rw [h.lines_eq, map_joined_around]
  simp [hcontext, hmarked, hcarets, hhere]

end Diagnostic

/-! ## The errors at names and tokens -/

section

variable {registry : Registry} {source : String} {error : CompileError} {span : Span}

/-- An error that is not about an unsupported expression is shown at a piece of its source, if it is
shown at more than a place. -/
theorem exists_piece_of_compile (h : compile registry source = .error error)
    (hkind : ∀ name span, error ≠ .planning (.unsupported name span))
    (hexcerpt : (error.diagnostic source).excerpt = some ⟨none, source, span⟩)
    (hspan : span.start < span.stop) : ∃ piece ∈ Scan.pieces source, piece.span = span := by
  rcases planSource_eq_error_iff.1 (compile_eq_error_iff.1 h) with
    ⟨cause, hparse, rfl⟩ | ⟨query, cause, hparse, hplan, rfl⟩
  · obtain rfl : cause.shownSpan = span := congrArg Excerpt.span (Option.some.inj hexcerpt)
    rcases exists_piece_of_parse hparse with hpiece | ⟨expected, rfl⟩
    · exact hpiece
    · exact absurd hspan (Nat.lt_irrefl _)
  · obtain rfl : cause.span = span := congrArg Excerpt.span (Option.some.inj hexcerpt)
    have hpoints := pointsInto_of_ofQuery hparse hplan
    cases cause with
    | unknownColumn | unknownTarget =>
      obtain ⟨token, hmem, rfl⟩ := hpoints
      exact exists_piece_of_mem_tokensOf hmem
    | unsupported name span => exact absurd rfl (hkind name span)

end

/-- A name that is not closed, behind one with a character of two bytes, with blanks and a carriage
return at its end. -/
def openQuoteSource : String := "SELECT `é`, `ü ö \t\r\nFROM board"

/-- A blank character that no token begins with. -/
def noBreakSource : String := "SELECT `é` \u00a0 FROM board"

end PinQuery
