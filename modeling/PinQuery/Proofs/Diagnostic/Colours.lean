import PinQuery.Proofs.Diagnostic.Marking

/-!
# Colours only decorate

A report in colours is the plain report with escape sequences around some of its texts.

* `Text.withoutEscapes`: a text without its escape sequences. Texts without the escape character
  stay (`Text.withoutEscapes_append`), and the sequences of a style go
  (`Text.withoutEscapes_escapes`).
* `Diagnostic.IsUnescaped`: the diagnostics none of whose texts has the escape character. Then no
  text in their reports has it (`Diagnostic.IsUnescaped.of_mem_lines`).
* `colours_only_decorate`: without its escape sequences, the report in colours is the plain one.
-/

namespace PinQuery

/-! ## Escape sequences -/

namespace Text

/-- What follows the escape sequence at the head of a text: the escape character, a bracket, digits
and an `m`. -/
def behindEscape? : List Char → Option (List Char)
  | '\x1b' :: '[' :: cs =>
    match cs.takeWhile Char.isDigit, cs.dropWhile Char.isDigit with
    | _ :: _, 'm' :: rest => some rest
    | _, _ => none
  | _ => none

theorem length_lt_of_behindEscape? {cs rest : List Char} (h : behindEscape? cs = some rest) :
    rest.length < cs.length := by
  unfold behindEscape? at h
  split at h
  next cs =>
    split at h
    next hdrop =>
      have hle : (cs.dropWhile Char.isDigit).length ≤ cs.length :=
        (List.dropWhile_sublist _).length_le
      cases h
      simp only [hdrop, List.length_cons] at hle ⊢
      omega
    next => cases h
  next => cases h

/-- A text without its escape sequences. -/
def withoutEscapes : List Char → List Char
  | [] => []
  | c :: cs =>
    match _ : behindEscape? (c :: cs) with
    | some rest => withoutEscapes rest
    | none => c :: withoutEscapes cs
termination_by cs => cs.length
decreasing_by
  · exact length_lt_of_behindEscape? ‹_›
  · exact Nat.lt_succ_self _

/-- A sequence without digits, or without its end, is none. -/
example : withoutEscapes "\x1b[31mError\x1b[m\x1b[1".toList = "Error\x1b[m\x1b[1".toList := by
  decide +kernel

theorem withoutEscapes_of_behindEscape? {cs rest : List Char} (h : behindEscape? cs = some rest) :
    withoutEscapes cs = withoutEscapes rest := by
  cases cs with
  | nil => cases h
  | cons c cs =>
    rw [withoutEscapes]
    split
    next hrest => rw [Option.some.inj (hrest.symm.trans h)]
    next hnone => rw [hnone] at h; cases h

theorem withoutEscapes_cons {c : Char} (hc : c ≠ '\x1b') (cs : List Char) :
    withoutEscapes (c :: cs) = c :: withoutEscapes cs := by
  have hnone : behindEscape? (c :: cs) = none := by
    unfold behindEscape?
    split
    next heq => exact absurd (List.cons.inj heq).1 hc
    next => rfl
  rw [withoutEscapes]
  split
  next hrest => rw [hnone] at hrest; cases hrest
  next => rfl

/-- A text without the escape character stays as it is. -/
theorem withoutEscapes_append {front : List Char} (h : '\x1b' ∉ front) (cs : List Char) :
    withoutEscapes (front ++ cs) = front ++ withoutEscapes cs := by
  induction front with
  | nil => rfl
  | cons c front ih =>
    obtain ⟨hc, hfront⟩ := not_or.1 (mt List.mem_cons.2 h)
    rw [List.cons_append, withoutEscapes_cons (Ne.symm hc), ih hfront, List.cons_append]

/-- The sequence of an attribute goes. -/
theorem withoutEscapes_escape (number : Nat) (cs : List Char) :
    withoutEscapes ((Style.escape number).toList ++ cs) = withoutEscapes cs := by
  have hdigits : ∀ c ∈ Nat.toDigits 10 number, c.isDigit = true := fun c hc =>
    Nat.isDigit_of_mem_toDigits (by decide) (by decide) hc
  have htext : (Style.escape number).toList ++ cs =
      '\x1b' :: '[' :: (Nat.toDigits 10 number ++ 'm' :: cs) := by
    simp [Style.escape]
  have hm : 'm'.isDigit = false := rfl
  obtain ⟨digit, digits, hcons⟩ :=
    List.exists_cons_of_ne_nil (Nat.toDigits_ne_nil (n := number) (b := 10))
  refine withoutEscapes_of_behindEscape? ?_
  rw [htext, behindEscape?, List.takeWhile_append_of_pos hdigits,
    List.dropWhile_append_of_pos hdigits, List.takeWhile_cons_of_neg (by simp [hm]),
    List.dropWhile_cons_of_neg (by simp [hm]), List.append_nil, hcons]
  rfl

/-- The sequences of a style go. -/
theorem withoutEscapes_escapes (numbers : List Nat) (cs : List Char) :
    withoutEscapes ((Style.escapes numbers).toList ++ cs) = withoutEscapes cs := by
  induction numbers with
  | nil => rfl
  | cons number numbers ih =>
    have htext : (Style.escapes (number :: numbers)).toList ++ cs =
        (Style.escape number).toList ++ ((Style.escapes numbers).toList ++ cs) := by
      simp [Style.escapes]
    rw [htext, withoutEscapes_escape, ih]

end Text

open Text

/-! ## Segments and lines -/

/-- A text without the escape character. -/
def IsUnescaped (text : String) : Prop := '\x1b' ∉ text.toList

instance (text : String) : Decidable (IsUnescaped text) := inferInstanceAs (Decidable (¬ _))

namespace Segment

/-- A segment in colours is its text in escape sequences. -/
theorem withoutEscapes_write {s : Segment} (h : IsUnescaped s.text) (cs : List Char) :
    withoutEscapes ((s.write true).toList ++ cs) =
      (s.write false).toList ++ withoutEscapes cs := by
  obtain ⟨style, text⟩ := s
  cases style with
  | none => exact withoutEscapes_append h cs
  | some style =>
    have htext : (write true ⟨some style, text⟩).toList ++ cs =
        (Style.escapes style.opening).toList
          ++ (text.toList ++ ((Style.escapes style.closing).toList ++ cs)) := by
      simp [write]
    rw [htext, withoutEscapes_escapes, withoutEscapes_append h, withoutEscapes_escapes]
    rfl

theorem withoutEscapes_writeLine {line : List Segment} (h : ∀ s ∈ line, IsUnescaped s.text)
    (cs : List Char) : withoutEscapes ((writeLine true line).toList ++ cs) =
      (writeLine false line).toList ++ withoutEscapes cs := by
  induction line with
  | nil => exact withoutEscapes_append (by decide) cs
  | cons s line ih =>
    obtain ⟨hs, hline⟩ := List.forall_mem_cons.1 h
    have htext (colours : Bool) : (writeLine colours (s :: line)).toList =
        (s.write colours).toList ++ (writeLine colours line).toList := by
      simp [writeLine]
    rw [htext, htext, List.append_assoc, withoutEscapes_write hs, ih hline, List.append_assoc]

/-- Lines in colours, one after another. -/
theorem withoutEscapes_join {lines : List (List Segment)}
    (h : ∀ line ∈ lines, ∀ s ∈ line, IsUnescaped s.text) :
    withoutEscapes (String.join (lines.map (writeLine true))).toList =
      (String.join (lines.map (writeLine false))).toList := by
  induction lines with
  | nil =>
    rw [List.map_nil, List.map_nil]
    exact withoutEscapes.eq_1
  | cons line lines ih =>
    obtain ⟨hline, hlines⟩ := List.forall_mem_cons.1 h
    have htext (colours : Bool) : (String.join ((line :: lines).map (writeLine colours))).toList =
        (writeLine colours line).toList
          ++ (String.join (lines.map (writeLine colours))).toList := by
      simp
    rw [htext, htext, withoutEscapes_writeLine hline, ih hlines]

end Segment

/-! ## Texts of reports -/

theorem IsUnescaped.append {s t : String} (hs : IsUnescaped s) (ht : IsUnescaped t) :
    IsUnescaped (s ++ t) := by
  simp_all [IsUnescaped]

theorem isUnescaped_repr (n : Nat) : IsUnescaped n.repr := by
  intro hmem
  rw [Nat.toList_repr] at hmem
  exact absurd (Nat.isDigit_of_mem_toDigits (by decide) (by decide) hmem) (by decide)

theorem isUnescaped_repeated {c : Char} (hc : c ≠ '\x1b') (count : Nat) :
    IsUnescaped (repeated count c) := by
  intro hmem
  rw [repeated, String.toList_ofList] at hmem
  exact hc (List.eq_of_mem_replicate hmem).symm

theorem isUnescaped_lineNumber (n : Nat) : IsUnescaped (lineNumber n) :=
  (isUnescaped_repeated (by decide) _).append (isUnescaped_repr n)

theorem Code.isUnescaped_text (code : Code) : IsUnescaped code.text :=
  IsUnescaped.append (by decide) (isUnescaped_repr _)

/-- Lines are shown with characters of the text. -/
theorem Text.mem_of_mem_lines {cs line : List Char} (h : line ∈ lines cs) : ∀ c ∈ line, c ∈ cs := by
  have hpieces : ∀ piece ∈ split '\n' cs, ∀ c ∈ piece, c ∈ cs := fun piece hpiece =>
    (not_mem_of_mem_split hpiece).2
  unfold lines at h
  generalize split '\n' cs = pieces at h hpieces
  induction pieces using shownLines.induct with
  | case1 => cases h
  | case2 last hempty => simp [shownLines, hempty] at h
  | case3 last hempty =>
    obtain rfl : line = last := by simpa [shownLines, hempty] using h
    exact hpieces _ (by simp)
  | case4 piece rest hrest ih =>
    rw [shownLines] at h
    · rcases List.mem_cons.1 h with rfl | h
      · intro c hc
        have hmem : c ∈ piece := by
          unfold dropReturn at hc
          split at hc
          · exact (List.dropLast_sublist piece).subset hc
          · exact hc
        exact hpieces piece (by simp) c hmem
      · exact ih h fun piece hpiece => hpieces piece (by simp [hpiece])
    · exact hrest

namespace Excerpt

/-- The texts of an excerpt have no escape character. -/
structure IsUnescaped (e : Excerpt) : Prop where
  filename : ∀ name ∈ e.filename, PinQuery.IsUnescaped name
  source : PinQuery.IsUnescaped e.source

namespace IsUnescaped

variable {e : Excerpt} (h : e.IsUnescaped)
include h

theorem text : PinQuery.IsUnescaped e.text := by
  intro hmem
  rw [Excerpt.text, String.toList_ofList] at hmem
  have hinside : '\x1b' ∈ e.inside := by
    have hblank := List.mem_reverse.1 ((List.dropWhile_sublist _).subset (List.mem_reverse.1 hmem))
    exact (List.dropWhile_sublist _).subset hblank
  refine h.source ?_
  rw [← takeBytes_append_dropBytes e.span.start e.source.toList]
  refine List.mem_append_right _ ?_
  change '\x1b' ∈ e.fromStart
  rw [← takeBytes_append_dropBytes (e.span.stop - e.span.start) e.fromStart]
  exact List.mem_append_left _ hinside

theorem location : PinQuery.IsUnescaped e.location := by
  have hplace : PinQuery.IsUnescaped (e.position.line.repr ++ ":" ++ e.position.column.repr) :=
    ((isUnescaped_repr _).append (by decide)).append (isUnescaped_repr _)
  unfold Excerpt.location
  split
  next name hname => exact ((h.filename name hname).append (by decide)).append hplace
  next => exact PinQuery.IsUnescaped.append (by decide) hplace

theorem pointer : PinQuery.IsUnescaped e.pointer := by
  unfold Excerpt.pointer
  split
  · decide
  · exact (PinQuery.IsUnescaped.append (by decide) h.text).append (by decide)

theorem of_mem_window {radius number : Nat} {text : String}
    (hmem : (number, text) ∈ e.window radius) : PinQuery.IsUnescaped text := by
  have hline := List.mem_of_getElem? (mem_window_iff.1 hmem).2.2.2
  exact fun hescape => h.source (mem_of_mem_lines hline _ hescape)

/-- What is shown of a line of the source. -/
theorem of_mem_sourceLines {number : Nat} {text : String} (htext : PinQuery.IsUnescaped text) :
    ∀ line ∈ e.sourceLines number text, ∀ s ∈ line, PinQuery.IsUnescaped s.text := by
  have hmargin : PinQuery.IsUnescaped ("  |" ++ lineNumber number ++ " | ") :=
    (PinQuery.IsUnescaped.append (by decide) (isUnescaped_lineNumber number)).append (by decide)
  have hindent : PinQuery.IsUnescaped ("  |      | " ++ repeated (e.position.column - 1) ' ') :=
    PinQuery.IsUnescaped.append (by decide) (isUnescaped_repeated (by decide) _)
  have hcarets := isUnescaped_repeated (c := '^') (by decide) (max 1 e.text.length)
  have hpointer : PinQuery.IsUnescaped (": " ++ e.pointer) :=
    PinQuery.IsUnescaped.append (by decide) h.pointer
  have hfixed : PinQuery.IsUnescaped "  |      +-- " ∧ PinQuery.IsUnescaped "Here" := by decide
  unfold sourceLines
  split
  · simp only [caretLine, hereLine, Segment.plain, Segment.styled, List.forall_mem_cons]
    exact ⟨⟨hmargin, htext, List.forall_mem_nil _⟩, ⟨hindent, hcarets, List.forall_mem_nil _⟩,
      ⟨hfixed.1, hfixed.2, hpointer, List.forall_mem_nil _⟩, List.forall_mem_nil _⟩
  · simp only [Segment.plain, Segment.styled, List.forall_mem_cons]
    exact ⟨⟨hmargin, htext, List.forall_mem_nil _⟩, List.forall_mem_nil _⟩

end IsUnescaped

end Excerpt

namespace Diagnostic

/-- The texts of a diagnostic have no escape character. -/
structure IsUnescaped (d : Diagnostic) : Prop where
  category : ∀ text ∈ d.category, PinQuery.IsUnescaped text
  title : ∀ text ∈ d.title, PinQuery.IsUnescaped text
  message : PinQuery.IsUnescaped d.message
  suggestion : ∀ text ∈ d.suggestion, PinQuery.IsUnescaped text
  excerpt : ∀ e ∈ d.excerpt, e.IsUnescaped

namespace IsUnescaped

variable {d : Diagnostic} (h : d.IsUnescaped)
include h

theorem of_mem_headLine (config : ReportConfig) :
    ∀ s ∈ d.headLine config, PinQuery.IsUnescaped s.text := by
  have hcategory : PinQuery.IsUnescaped (d.category.getD "Error") := by
    cases hcategory : d.category with
    | none => decide
    | some text => exact h.category text hcategory
  have hfixed : ∀ text ∈ ["Error", ": ", " [", "]"], PinQuery.IsUnescaped text := by decide
  simp only [List.forall_mem_cons] at hfixed
  obtain ⟨herror, hcolon, hopen, hclose, -⟩ := hfixed
  simp only [headLine, List.forall_mem_append, List.forall_mem_cons, Segment.plain, Segment.styled]
  refine ⟨⟨⟨herror, hcolon, hcategory, List.forall_mem_nil _⟩, ?_⟩, ?_⟩
  · split
    · simp only [List.forall_mem_cons]
      exact ⟨hopen, Code.isUnescaped_text _, hclose, List.forall_mem_nil _⟩
    · exact List.forall_mem_nil _
  · split
    next text htitle =>
      exact List.forall_mem_singleton.2 (hcolon.append (h.title text htitle))
    next => exact List.forall_mem_nil _

/-- No text in a report has the escape character. -/
theorem of_mem_lines (config : ReportConfig) :
    ∀ line ∈ d.lines config, ∀ s ∈ line, PinQuery.IsUnescaped s.text := by
  have hfixed : ∀ text ∈ ["  ", "|", " ", "Message", ": ", "  +--> ", "Location", "Suggestion"],
      PinQuery.IsUnescaped text := by decide
  simp only [List.forall_mem_cons] at hfixed
  obtain ⟨hindent, hbar, hblank, hmessage, hcolon, harrow, hlocation, hsuggestion, -⟩ := hfixed
  have hbarLine : ∀ s ∈ barLine, PinQuery.IsUnescaped s.text := by
    simp only [barLine, List.forall_mem_cons, Segment.plain, Segment.styled]
    exact ⟨hindent, hbar, List.forall_mem_nil _⟩
  have hmessageLine : ∀ s ∈ d.messageLine, PinQuery.IsUnescaped s.text := by
    simp only [messageLine, List.forall_mem_append, List.forall_mem_cons, Segment.plain,
      Segment.styled]
    exact ⟨hbarLine, hblank, hmessage, hcolon.append h.message, List.forall_mem_nil _⟩
  simp only [lines, List.forall_mem_append, List.forall_mem_cons]
  refine ⟨⟨⟨h.of_mem_headLine config, hbarLine, hmessageLine, List.forall_mem_nil _⟩, ?_⟩, ?_⟩
  · split
    next _ _ e hexcerpt _ =>
      have he := h.excerpt e hexcerpt
      simp only [excerptLines, List.forall_mem_append, List.forall_mem_cons,
        List.forall_mem_flatMap, Segment.plain, Segment.styled]
      exact ⟨⟨⟨hbarLine, ⟨harrow, hlocation, hcolon.append he.location, List.forall_mem_nil _⟩,
        hbarLine, List.forall_mem_nil _⟩,
        fun line hline => he.of_mem_sourceLines (he.of_mem_window hline)⟩, hbarLine,
        List.forall_mem_nil _⟩
    next => exact List.forall_mem_nil _
  · split
    next text htext =>
      simp only [List.forall_mem_cons, Segment.plain, Segment.styled]
      exact ⟨⟨harrow, hsuggestion, hcolon.append (h.suggestion text htext), List.forall_mem_nil _⟩,
        List.forall_mem_nil _⟩
    next => exact List.forall_mem_nil _

end IsUnescaped

end Diagnostic

/-! ## Reports -/

/-- **Colours only decorate.** Where no text of a diagnostic has the escape character, the report in
colours without its escape sequences is the report without colours, whatever else is configured. -/
theorem colours_only_decorate {d : Diagnostic} (h : d.IsUnescaped) (config : ReportConfig) :
    withoutEscapes (d.report { config with colours := true }).toList =
      (d.report { config with colours := false }).toList :=
  Segment.withoutEscapes_join (h.of_mem_lines config)

/-- A diagnostic of an unknown column in a source of two lines, read from a file. -/
def unknownColumnDiagnostic : Diagnostic where
  code := some .unknownColumn
  category := some "SemanticError"
  title := none
  message := "Unknown column 'dim1'"
  suggestion := some "Did you mean 'din1'?"
  excerpt := some ⟨some "pins.sql", "SELECT dim1\nFROM board", ⟨7, 11⟩⟩

/-- The report in colours begins with an escape sequence. -/
theorem colours_only_decorate_unknownColumn : unknownColumnDiagnostic.IsUnescaped ∧
    (unknownColumnDiagnostic.report .full).toList.head? = some '\x1b' ∧
    withoutEscapes (unknownColumnDiagnostic.report .full).toList =
      (unknownColumnDiagnostic.report ⟨true, true, 2, false⟩).toList := by
  have h : unknownColumnDiagnostic.IsUnescaped := by
    refine ⟨by decide, by decide, by decide, by decide, ?_⟩
    rintro _ ⟨⟩
    exact ⟨by decide, by decide⟩
  refine ⟨h, ?_, colours_only_decorate h .full⟩
  simp [Diagnostic.report, Diagnostic.lines, Diagnostic.headLine, ReportConfig.full,
    Segment.writeLine, Segment.styled, Segment.write, Style.opening, Style.escapes, Style.escape]

end PinQuery
