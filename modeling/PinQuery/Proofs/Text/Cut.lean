import PinQuery.Proofs.Token.Numeral
import PinQuery.Proofs.Token.Places
import PinQuery.Text.Line

/-!
# Cuts at byte offsets

Which spans cut a text between its characters, and where the line feeds of a text are.

* `slice?_eq_some_iff`: a slice is a stretch of the text, and its span says which.
* `IsBoundary` are the offsets between two characters. Two of them in order always give a slice
  (`exists_slice?`).
* `firstIndex?` and `lastIndex?` search a text for a mark and give the offset of its first byte.
  With a line feed as the mark they find the ends of lines (`firstIndex?_lineFeed`,
  `lastIndex?_lineFeed`).
-/

namespace PinQuery.Text

variable {cs inside : List Char} {start stop : Nat}

theorem byteLength_eq_zero_iff : byteLength cs = 0 ↔ cs = [] := by
  cases cs with
  | nil => simp [byteLength]
  | cons c cs =>
    have := c.utf8Size_pos
    simp only [byteLength, reduceCtorEq, iff_false]
    omega

theorem length_le_byteLength (cs : List Char) : cs.length ≤ byteLength cs := by
  induction cs with
  | nil => simp
  | cons c cs ih =>
    have := c.utf8Size_pos
    simp only [List.length_cons, byteLength]
    omega

/-! ## Slices -/

/-- A slice is a stretch of the text, and its span says which. -/
theorem slice?_eq_some_iff {span : Span} :
    slice? span cs = some inside ↔ ∃ before after, cs = before ++ (inside ++ after) ∧
      span = ⟨byteLength before, byteLength before + byteLength inside⟩ := by
  constructor
  · intro h
    unfold slice? at h
    dsimp only at h
    split at h
    next hends =>
      cases h
      refine ⟨takeBytes span.start cs,
        dropBytes (span.stop - span.start) (dropBytes span.start cs), by simp, ?_⟩
      rw [hends.1, hends.2]
    next => cases h
  · rintro ⟨before, after, rfl, rfl⟩
    exact slice?_append before inside after

/-- The offsets between two characters of a text, both ends of the text included. -/
def IsBoundary (cs : List Char) (offset : Nat) : Prop :=
  ∃ before after, cs = before ++ after ∧ offset = byteLength before

/-- Of two cuts of one text, the one with more bytes before it is the later one. -/
theorem exists_between {before rest front after : List Char} (h : before ++ rest = front ++ after)
    (hle : byteLength before ≤ byteLength front) :
    ∃ between, front = before ++ between ∧ rest = between ++ after := by
  rcases List.append_eq_append_iff.1 h with ⟨between, hfront, hrest⟩ | ⟨between, rfl, rfl⟩
  · exact ⟨between, hfront, hrest⟩
  · -- the second cut is not left of the first, so nothing lies between them
    have hbetween : between = [] := by
      rw [byteLength_append] at hle
      exact byteLength_eq_zero_iff.1 (by omega)
    exact ⟨[], by simp [hbetween], by simp [hbetween]⟩

/-- Two boundaries in order cut a text into three stretches. -/
theorem IsBoundary.exists_append (hstart : IsBoundary cs start) (hstop : IsBoundary cs stop)
    (hle : start ≤ stop) : ∃ before inside after, cs = before ++ (inside ++ after) ∧
      start = byteLength before ∧ stop = byteLength before + byteLength inside := by
  obtain ⟨before, rest, rfl, rfl⟩ := hstart
  obtain ⟨front, after, hcut, rfl⟩ := hstop
  obtain ⟨inside, rfl, rfl⟩ := exists_between hcut hle
  exact ⟨before, inside, after, rfl, rfl, byteLength_append before inside⟩

/-- Two boundaries in order give a slice. -/
theorem IsBoundary.exists_slice? (hstart : IsBoundary cs start) (hstop : IsBoundary cs stop)
    (hle : start ≤ stop) : ∃ inside, slice? ⟨start, stop⟩ cs = some inside := by
  obtain ⟨before, inside, after, hcs, rfl, rfl⟩ := hstart.exists_append hstop hle
  exact ⟨inside, slice?_eq_some_iff.2 ⟨before, after, hcs, rfl⟩⟩

/-- The span of a slice has its ends in order, on boundaries, and inside the text. -/
theorem isBoundary_of_slice? {span : Span} (h : slice? span cs = some inside) :
    IsBoundary cs span.start ∧ IsBoundary cs span.stop ∧ span.start ≤ span.stop ∧
      span.stop ≤ byteLength cs := by
  obtain ⟨before, after, rfl, rfl⟩ := slice?_eq_some_iff.1 h
  refine ⟨⟨before, inside ++ after, rfl, rfl⟩, ⟨before ++ inside, after, by simp, by simp⟩,
    Nat.le_add_right _ _, ?_⟩
  simp only [byteLength_append]
  omega

/-- From one slice to a later one there is a slice that begins and ends with them. -/
theorem slice?_cover {first last : List Char} {span other : Span}
    (hfirst : slice? span cs = some first) (hlast : slice? other cs = some last)
    (hle : span.stop ≤ other.start) :
    ∃ between, slice? (span.cover other) cs = some (first ++ between ++ last) := by
  obtain ⟨before, after, hcs, rfl⟩ := slice?_eq_some_iff.1 hfirst
  obtain ⟨before', after', hcs', rfl⟩ := slice?_eq_some_iff.1 hlast
  have hcut : (before ++ first) ++ after = before' ++ (last ++ after') := by
    rw [← hcs', hcs, List.append_assoc]
  obtain ⟨between, rfl, rfl⟩ := exists_between hcut (by rwa [byteLength_append])
  refine ⟨between, slice?_eq_some_iff.2 ⟨before, after', by simp [hcs], ?_⟩⟩
  simp only [Span.cover, byteLength_append, Nat.add_assoc]

/-! ## Line feeds -/

/-- The offset of the first occurrence of a mark. -/
def firstIndex? (mark : Char) : List Char → Option Nat
  | [] => none
  | c :: cs => if c = mark then some 0 else (firstIndex? mark cs).map (c.utf8Size + ·)

/-- The offset of the last occurrence of a mark. -/
def lastIndex? (mark : Char) : List Char → Option Nat
  | [] => none
  | c :: cs =>
    match lastIndex? mark cs with
    | some i => some (c.utf8Size + i)
    | none => if c = mark then some 0 else none

theorem firstIndex?_spec (mark : Char) (cs : List Char) :
    (firstIndex? mark cs = none ∧ mark ∉ cs) ∨
      ∃ before after, cs = before ++ mark :: after ∧ mark ∉ before ∧
        firstIndex? mark cs = some (byteLength before) := by
  induction cs with
  | nil => exact .inl ⟨rfl, List.not_mem_nil⟩
  | cons c cs ih =>
    by_cases hc : c = mark
    · exact .inr ⟨[], cs, by simp [hc], List.not_mem_nil, by simp [firstIndex?, hc, byteLength]⟩
    · rcases ih with ⟨hnone, hmem⟩ | ⟨before, after, rfl, hmem, hsome⟩
      · exact .inl ⟨by simp [firstIndex?, hc, hnone], by simp [Ne.symm hc, hmem]⟩
      · exact .inr ⟨c :: before, after, rfl, by simp [Ne.symm hc, hmem],
          by simp [firstIndex?, hc, hsome, byteLength]⟩

theorem lastIndex?_spec (mark : Char) (cs : List Char) :
    (lastIndex? mark cs = none ∧ mark ∉ cs) ∨
      ∃ before after, cs = before ++ mark :: after ∧ mark ∉ after ∧
        lastIndex? mark cs = some (byteLength before) := by
  induction cs with
  | nil => exact .inl ⟨rfl, List.not_mem_nil⟩
  | cons c cs ih =>
    rcases ih with ⟨hnone, hmem⟩ | ⟨before, after, rfl, hmem, hsome⟩
    · by_cases hc : c = mark
      · exact .inr ⟨[], cs, by simp [hc], hmem, by simp [lastIndex?, hnone, hc, byteLength]⟩
      · exact .inl ⟨by simp [lastIndex?, hnone, hc], by simp [Ne.symm hc, hmem]⟩
    · exact .inr ⟨c :: before, after, rfl, hmem, by simp [lastIndex?, hsome, byteLength]⟩

/-- Without its first line feed and what follows, a text is its first line. -/
theorem firstLine_append {before rest : List Char} (h : '\n' ∉ before)
    (hrest : Breaks (· != '\n') rest) : firstLine (before ++ rest) = before := by
  refine takeWhile_append_of_breaks (fun c hc => ?_) hrest
  have hne : c ≠ '\n' := fun heq => h (heq ▸ hc)
  simpa using hne

/-- Without its last line feed and what stands before it, a text is its last line. -/
theorem lastLine_append {rest after : List Char} (h : '\n' ∉ after)
    (hrest : Breaks (· != '\n') rest.reverse) : lastLine (rest ++ after) = after := by
  have hreverse := firstLine_append (mt List.mem_reverse.1 h) hrest
  rw [lastLine, List.reverse_append]
  rw [firstLine] at hreverse
  rw [hreverse, List.reverse_reverse]

/-- The search for the first line feed finds the end of the first line. -/
theorem firstIndex?_lineFeed (cs : List Char) :
    (firstIndex? '\n' cs = none ∧ firstLine cs = cs) ∨
      ∃ after, cs = firstLine cs ++ '\n' :: after ∧
        firstIndex? '\n' cs = some (byteLength (firstLine cs)) := by
  rcases firstIndex?_spec '\n' cs with ⟨hnone, hmem⟩ | ⟨before, after, rfl, hmem, hsome⟩
  · refine .inl ⟨hnone, ?_⟩
    simpa using firstLine_append hmem Breaks.nil
  · have hline : firstLine (before ++ '\n' :: after) = before :=
      firstLine_append hmem (by simp [Breaks])
    exact .inr ⟨after, by rw [hline], by rw [hline, hsome]⟩

/-- The search for the last line feed finds the character before the last line. -/
theorem lastIndex?_lineFeed (cs : List Char) :
    (lastIndex? '\n' cs = none ∧ lastLine cs = cs) ∨
      ∃ before, cs = before ++ '\n' :: lastLine cs ∧
        lastIndex? '\n' cs = some (byteLength before) := by
  rcases lastIndex?_spec '\n' cs with ⟨hnone, hmem⟩ | ⟨before, after, rfl, hmem, hsome⟩
  · refine .inl ⟨hnone, ?_⟩
    have hline : lastLine ([] ++ cs) = cs := lastLine_append hmem Breaks.nil
    exact hline
  · have hline : lastLine (before ++ ['\n'] ++ after) = after :=
      lastLine_append hmem (by simp [Breaks])
    rw [List.append_assoc, List.singleton_append] at hline
    exact .inr ⟨before, by rw [hline], hsome⟩

end PinQuery.Text
