import PinQuery.Proofs.Text.Cut
import PinQuery.Proofs.Text.Split

/-!
# The shown lines of a text

The line that holds a place is found twice in a report: its number by counting the line feeds before
the place, its text by looking that number up in `lines`. The two agree.

* `length_split`: there is one stretch more than there are marks.
* `getElem?_lines`: behind a text with `n` line feeds, line `n` is the first line of what is left.
* `head?_lines`: the first line goes up to the first line feed. A text without one is its own line,
  unless it is empty.
-/

namespace PinQuery.Text

theorem length_split (mark : Char) (cs : List Char) :
    (split mark cs).length = cs.count mark + 1 := by
  induction cs with
  | nil => rfl
  | cons c cs ih =>
    by_cases hc : c = mark
    · simp [split, hc, ih]
    · obtain ⟨piece, rest, hsplit, hsplit'⟩ := split_cons_of_ne hc cs
      rw [hsplit] at ih
      rw [hsplit', List.count_cons_of_ne hc, ← ih]
      rfl

/-- Only the last stretch is shown as it is. -/
theorem shownLines_append (pieces : List (List Char)) {more : List (List Char)} (h : more ≠ []) :
    shownLines (pieces ++ more) = pieces.map dropReturn ++ shownLines more := by
  induction pieces with
  | nil => rfl
  | cons piece pieces ih =>
    obtain ⟨next, rest, hnext⟩ :=
      List.exists_cons_of_ne_nil (List.append_ne_nil_of_right_ne_nil pieces h)
    rw [List.cons_append, List.map_cons, List.cons_append, ← ih, hnext]
    rfl

/-- The lines of a text up to a line feed, and those of the text behind it. -/
theorem lines_append (cs ds : List Char) :
    lines (cs ++ '\n' :: ds) = (split '\n' cs).map dropReturn ++ lines ds := by
  obtain ⟨piece, rest, hsplit⟩ := exists_split_eq_cons '\n' ds
  rw [lines, split_append, shownLines_append _ (by simp [hsplit]), lines]

/-- As many line feeds as there are before a place, as many lines are above it. -/
theorem getElem?_lines (before rest : List Char) :
    (lines (before ++ rest))[before.count '\n']? = (lines (lastLine before ++ rest)).head? := by
  rcases lastIndex?_spec '\n' before with ⟨-, hmem⟩ | ⟨above, line, rfl, hmem, -⟩
  · have hline : lastLine ([] ++ before) = before := lastLine_append hmem Breaks.nil
    rw [List.nil_append] at hline
    rw [List.count_eq_zero.2 hmem, hline, List.head?_eq_getElem?]
  · have hline : lastLine (above ++ ['\n'] ++ line) = line :=
      lastLine_append hmem (by simp [Breaks])
    rw [List.append_assoc, List.singleton_append] at hline
    have hcount : (above ++ '\n' :: line).count '\n' =
        ((split '\n' above).map dropReturn).length := by
      rw [List.length_map, length_split, List.count_append, List.count_cons_self,
        List.count_eq_zero.2 hmem]
    rw [hline, hcount, List.append_assoc, List.cons_append, lines_append,
      List.getElem?_append_right (Nat.le_refl _), Nat.sub_self, List.head?_eq_getElem?]

/-- The first line of a text goes up to its first line feed. -/
theorem head?_lines_of_mem {cs : List Char} (h : '\n' ∈ cs) :
    (lines cs).head? = some (dropReturn (firstLine cs)) := by
  rcases firstIndex?_spec '\n' cs with ⟨-, hmem⟩ | ⟨line, below, rfl, hmem, -⟩
  · exact absurd h hmem
  · rw [lines_append, split_of_not_mem hmem, firstLine_append hmem (by simp [Breaks])]
    rfl

/-- A text without a line feed is one line, or none if it is empty. -/
theorem head?_lines_of_not_mem {cs : List Char} (h : '\n' ∉ cs) :
    (lines cs).head? = if cs = [] then none else some cs := by
  rw [lines, split_of_not_mem h]
  cases cs <;> rfl

theorem not_mem_lastLine (cs : List Char) : '\n' ∉ lastLine cs := by
  intro h
  have := List.mem_takeWhile_imp (List.mem_reverse.1 h)
  simp at this

/-- Nothing follows the last line feed of a text that ends in one. -/
theorem lastLine_eq_nil_iff {cs : List Char} :
    lastLine cs = [] ↔ cs = [] ∨ cs.getLast? = some '\n' := by
  have hnil : cs = [] ↔ cs.reverse = [] := List.reverse_eq_nil_iff.symm
  rw [lastLine, List.reverse_eq_nil_iff, ← List.head?_reverse, hnil]
  cases cs.reverse with
  | nil => simp
  | cons c rest => by_cases hc : c = '\n' <;> simp [hc]

/-- A line goes on up to the first line feed behind it. -/
theorem firstLine_append_of_not_mem {cs : List Char} (h : '\n' ∉ cs) (rest : List Char) :
    firstLine (cs ++ rest) = cs ++ firstLine rest := by
  refine List.takeWhile_append_of_pos fun c hc => ?_
  have hne : c ≠ '\n' := fun heq => h (heq ▸ hc)
  simpa using hne

theorem not_mem_firstLine (cs : List Char) : '\n' ∉ firstLine cs := by
  intro h
  have := List.mem_takeWhile_imp h
  simp at this

/-- A text without a line feed goes on with the last line before it. -/
theorem lastLine_append_of_not_mem {cs : List Char} (h : '\n' ∉ cs) (before : List Char) :
    lastLine (before ++ cs) = lastLine before ++ cs := by
  have hline : ∀ c ∈ cs.reverse, (c != '\n') = true := by
    intro c hc
    have hne : c ≠ '\n' := fun heq => h (heq ▸ List.mem_reverse.1 hc)
    simpa using hne
  rw [lastLine, List.reverse_append, List.takeWhile_append_of_pos hline, List.reverse_append,
    List.reverse_reverse]
  rfl

/-- The stretch of a text in which a place lies: it begins behind the last line feed before the
place and goes up to the first one behind it. Above it are as many stretches as there are line feeds
before the place. -/
theorem exists_split_eq (before rest : List Char) : ∃ above below,
    split '\n' (before ++ rest) = above ++ (lastLine before ++ firstLine rest) :: below ∧
      above.length = before.count '\n' ∧ above.flatMap (· ++ ['\n']) ++ lastLine before = before := by
  -- a line without a line feed, and the stretches from its start on
  have hline {line : List Char} (h : '\n' ∉ line) :
      ∃ below, split '\n' (line ++ rest) = (line ++ firstLine rest) :: below := by
    have hpiece : '\n' ∉ line ++ firstLine rest := by simp [h, not_mem_firstLine]
    rcases firstIndex?_lineFeed rest with ⟨hnone, hfirst⟩ | ⟨after, hcut, -⟩
    · rw [hfirst] at hpiece ⊢
      exact ⟨[], split_of_not_mem hpiece⟩
    · refine ⟨split '\n' after, ?_⟩
      conv_lhs => rw [hcut, ← List.append_assoc, split_append, split_of_not_mem hpiece]
      rfl
  obtain ⟨below, hbelow⟩ := hline (not_mem_lastLine before)
  rcases lastIndex?_lineFeed before with ⟨-, hlast⟩ | ⟨front, hcut, -⟩
  · rw [hlast] at hbelow ⊢
    refine ⟨[], below, hbelow, ?_, rfl⟩
    have hmem := not_mem_lastLine before
    rw [hlast] at hmem
    exact (List.count_eq_zero.2 hmem).symm
  · refine ⟨split '\n' front, below, ?_, ?_, ?_⟩
    · rw [← hbelow, ← split_append, ← List.cons_append, ← List.append_assoc, ← hcut]
    · rw [length_split, hcut, List.count_append, List.count_cons_self,
        List.count_eq_zero.2 (not_mem_lastLine before)]
    · rw [flatMap_split, List.append_assoc]
      exact hcut.symm

theorem length_dropReturn_le (line : List Char) : (dropReturn line).length ≤ line.length := by
  unfold dropReturn
  split
  · rw [List.length_dropLast]
    exact Nat.sub_le _ _
  · exact Nat.le_refl _

theorem length_le_length_dropReturn (line : List Char) :
    line.length ≤ (dropReturn line).length + 1 := by
  unfold dropReturn
  split
  · rw [List.length_dropLast]
    omega
  · exact Nat.le_succ _

end PinQuery.Text
