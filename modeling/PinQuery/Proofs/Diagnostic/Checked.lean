import Mathlib.Algebra.Group.Nat.Defs
import PinQuery.Diagnostic.Report
import PinQuery.Proofs.Text.Cut

/-!
# Reports from checked operations

A report cuts the source at byte offsets and counts its characters and lines. On a machine each of
these operations can fail: a cut that is out of range or inside a character, a sum that is too
large, a difference below zero, a clamp between bounds in the wrong order. This module has the
functions behind a report once more, with every such operation checked; `none` is a failed one.

* `Excerpt.position?`, `Excerpt.line?`, `Excerpt.text?` and `Excerpt.window?` work on byte offsets
  and slices, `Diagnostic.report?` shows what they give.
* `Excerpt.Sound`: the span of the excerpt cuts its source between characters.
* `Excerpt.Sound.position?_eq` and its siblings: in a sound excerpt no operation fails, and the
  results are those of the excerpt. So `Diagnostic.report?_eq`: neither does any operation of a
  report.
-/

namespace PinQuery

open Text

/-! ## Operations that can fail -/

namespace Checked

/-- One more than the largest count. -/
def limit : Nat := 2 ^ 64

/-- The sum of two counts, if it is a count. -/
def add? (a b : Nat) : Option Nat := if a + b < limit then some (a + b) else none

/-- The difference of two counts, if it is a count. -/
def sub? (a b : Nat) : Option Nat := if b ≤ a then some (a - b) else none

/-- The number nearest to a number between two bounds, if they are in order. -/
def clamp? (n least greatest : Nat) : Option Nat :=
  if least ≤ greatest then some (max least (min n greatest)) else none

theorem add?_of_lt {a b : Nat} (h : a + b < limit) : add? a b = some (a + b) := if_pos h

theorem sub?_of_le {a b : Nat} (h : b ≤ a) : sub? a b = some (a - b) := if_pos h

theorem clamp?_of_le {n least greatest : Nat} (hleast : least ≤ n) (hgreatest : n ≤ greatest) :
    clamp? n least greatest = some n := by
  rw [clamp?, if_pos (hleast.trans hgreatest), min_eq_left hgreatest, max_eq_right hleast]

/-- Checked operations on every element, none of which fails. -/
theorem mapM_eq_some_map {α β : Type} {f : α → Option β} {g : α → β} {as : List α}
    (h : ∀ a ∈ as, f a = some (g a)) : as.mapM f = some (as.map g) := by
  induction as with
  | nil => rfl
  | cons a as ih =>
    rw [List.mapM_cons, h a List.mem_cons_self, ih fun b hb => h b (List.mem_cons_of_mem a hb)]
    rfl

end Checked

open Checked

/-! ## Excerpts -/

namespace Excerpt

/-- The number of bytes of the source. -/
def size (e : Excerpt) : Nat := byteLength e.source.toList

/-- The start of the span, or the end of the source if that comes first. -/
def start (e : Excerpt) : Nat := min e.span.start e.size

/-- The end of the span, kept between its start and the end of the source. -/
def stop? (e : Excerpt) : Option Nat := clamp? e.span.stop e.start e.size

/-- The source before the span, as a slice. -/
def before? (e : Excerpt) : Option (List Char) := slice? ⟨0, e.start⟩ e.source.toList

/-- The offset behind the last line feed before the span. -/
def lineStart? (e : Excerpt) : Option Nat := do
  let before ← e.before?
  match lastIndex? '\n' before with
  | some i => add? i 1
  | none => some 0

/-- Where the span starts. -/
def position? (e : Excerpt) : Option Position := do
  let before ← e.before?
  let line ← add? (before.count '\n') 1
  let lineStart ← e.lineStart?
  let inLine ← slice? ⟨lineStart, e.start⟩ e.source.toList
  let column ← add? inLine.length 1
  return ⟨line, column⟩

/-- The offset of the first line feed behind the span, or the end of the source. -/
def lineStop? (e : Excerpt) : Option Nat := do
  let stop ← e.stop?
  let rest ← slice? ⟨stop, e.size⟩ e.source.toList
  match firstIndex? '\n' rest with
  | some i => add? stop i
  | none => some e.size

/-- The whole lines that the span touches. -/
def line? (e : Excerpt) : Option String := do
  let lineStart ← e.lineStart?
  let lineStop ← e.lineStop?
  let line ← slice? ⟨lineStart, lineStop⟩ e.source.toList
  return String.ofList line

/-- The text under the span, without blanks at its ends. -/
def text? (e : Excerpt) : Option String := do
  let stop ← e.stop?
  let inside ← slice? ⟨e.start, stop⟩ e.source.toList
  return String.ofList (trim inside)

/-- Lines with their numbers, the first of them behind `first` other lines. -/
def numbered? (first : Nat) (lines : List (List Char)) : Option (List (Nat × String)) :=
  lines.zipIdx.mapM fun (line, i) => do
    let above ← add? first i
    let number ← add? above 1
    return (number, String.ofList line)

/-- The lines at most `radius` lines away from the start of the span, with their numbers. -/
def window? (e : Excerpt) (radius : Nat) : Option (List (Nat × String)) := do
  let before ← e.before?
  let lines := Text.lines e.source.toList
  let index := before.count '\n'
  let first := index - radius
  let last ← add? index radius
  let beyond ← add? last 1
  numbered? first ((lines.drop first).take (min beyond lines.length - first))

/-- The span cuts the source between characters, and offsets fit into 32 bits. -/
structure Sound (e : Excerpt) : Prop where
  start_eq : e.span.start = byteLength e.before
  stop_eq : e.span.stop = byteLength e.before + byteLength e.inside
  size_lt : e.size < 2 ^ 32

/-- The text under a span that is a slice of the source. -/
theorem inside_of_slice? {e : Excerpt} {inside : List Char}
    (h : slice? e.span e.source.toList = some inside) : e.inside = inside := by
  obtain ⟨before, after, hsource, hspan⟩ := slice?_eq_some_iff.1 h
  rw [Excerpt.inside, fromStart, hspan, hsource, dropBytes_byteLength_append,
    Nat.add_sub_cancel_left, takeBytes_byteLength_append]

theorem sound_of_slice? {e : Excerpt} {inside : List Char}
    (h : slice? e.span e.source.toList = some inside) (hsize : e.size < 2 ^ 32) : e.Sound := by
  have hinside := inside_of_slice? h
  obtain ⟨before, after, hsource, hspan⟩ := slice?_eq_some_iff.1 h
  have hbefore : e.before = before := by
    rw [Excerpt.before, hspan, hsource, takeBytes_byteLength_append]
  exact ⟨by rw [hbefore, hspan], by rw [hbefore, hinside, hspan], hsize⟩

theorem toList_source (e : Excerpt) : e.source.toList = e.before ++ (e.inside ++ e.after) := by
  simp [before, inside, after, fromStart]

theorem size_eq (e : Excerpt) :
    e.size = byteLength e.before + (byteLength e.inside + byteLength e.after) := by
  rw [size, toList_source, byteLength_append, byteLength_append]

theorem numbered?_eq {first : Nat} {lines : List (List Char)} (h : first + lines.length < limit) :
    numbered? first lines = some ((lines.zipIdx (first + 1)).map fun (line, number) =>
      (number, String.ofList line)) := by
  rw [List.zipIdx_eq_map_add, List.map_map]
  refine mapM_eq_some_map fun (line, i) hmem => ?_
  have hi := (List.mem_zipIdx' hmem).1
  have habove : add? first i = some (first + i) := add?_of_lt (by omega)
  have hnumber : add? (first + i) 1 = some (first + i + 1) := add?_of_lt (by omega)
  simp only [habove, hnumber, Option.bind_eq_bind, Option.bind_some, Function.comp_apply]
  rw [Nat.add_right_comm]
  rfl

namespace Sound

variable {e : Excerpt} (h : e.Sound)

include h

theorem start_eq_byteLength : e.start = byteLength e.before := by
  have := e.size_eq
  rw [start, h.start_eq]
  omega

theorem stop?_eq : e.stop? = some (byteLength e.before + byteLength e.inside) := by
  have := e.size_eq
  rw [stop?, h.start_eq_byteLength, h.stop_eq]
  exact clamp?_of_le (by omega) (by omega)

theorem before?_eq : e.before? = some e.before := by
  refine slice?_eq_some_iff.2 ⟨[], e.inside ++ e.after, e.toList_source, ?_⟩
  rw [h.start_eq_byteLength]
  simp [byteLength]

/-- The last line before the span begins at the found offset. -/
theorem exists_lineStart? : ∃ head, e.before = head ++ lastLine e.before ∧
    e.lineStart? = some (byteLength head) := by
  have hsize := e.size_eq
  have hlt := h.size_lt
  rw [lineStart?, h.before?_eq]
  rcases lastIndex?_lineFeed e.before with ⟨hnone, hline⟩ | ⟨head, hcut, hsome⟩
  · exact ⟨[], hline.symm, by simp [hnone, byteLength]⟩
  · have hlength : byteLength (head ++ ['\n']) = byteLength head + 1 :=
      byteLength_append head ['\n']
    have hle : byteLength head + 1 ≤ byteLength e.before := by
      rw [hcut, List.append_cons, byteLength_append, hlength]
      exact Nat.le_add_right _ _
    refine ⟨head ++ ['\n'], by rw [List.append_assoc]; exact hcut, ?_⟩
    rw [hlength]
    simp only [Option.bind_eq_bind, Option.bind_some, hsome]
    exact add?_of_lt (by unfold limit; omega)

theorem position?_eq : e.position? = some e.position := by
  have hsize := e.size_eq
  have hlt := h.size_lt
  have hcount := List.count_le_length (a := '\n') (l := e.before)
  have hlength := length_le_byteLength e.before
  obtain ⟨head, hcut, hstart⟩ := h.exists_lineStart?
  have hinLine : slice? ⟨byteLength head, e.start⟩ e.source.toList = some (lastLine e.before) := by
    refine slice?_eq_some_iff.2 ⟨head, e.inside ++ e.after, ?_, ?_⟩
    · rw [← List.append_assoc, ← hcut]
      exact e.toList_source
    · rw [h.start_eq_byteLength, ← byteLength_append, ← hcut]
  have hline : (lastLine e.before).length ≤ e.before.length := by
    rw [congrArg List.length hcut, List.length_append]
    exact Nat.le_add_left _ _
  have hline? : add? (e.before.count '\n') 1 = some (e.before.count '\n' + 1) :=
    add?_of_lt (by unfold limit; omega)
  have hcolumn? : add? (lastLine e.before).length 1 = some ((lastLine e.before).length + 1) :=
    add?_of_lt (by unfold limit; omega)
  simp only [position?, h.before?_eq, hline?, hstart, hinLine, hcolumn?, Option.bind_eq_bind,
    Option.bind_some]
  rfl

theorem text?_eq : e.text? = some e.text := by
  have hinside : slice? ⟨e.start, byteLength e.before + byteLength e.inside⟩ e.source.toList =
      some e.inside := by
    refine slice?_eq_some_iff.2 ⟨e.before, e.after, e.toList_source, ?_⟩
    rw [h.start_eq_byteLength]
  simp only [text?, h.stop?_eq, hinside, Option.bind_eq_bind, Option.bind_some]
  rfl

/-- The first line behind the span stops at the found offset, whether a line feed follows or not. -/
theorem exists_lineStop? : ∃ tail, e.after = firstLine e.after ++ tail ∧ e.lineStop? =
    some (byteLength e.before + byteLength e.inside + byteLength (firstLine e.after)) := by
  have hsize := e.size_eq
  have hlt := h.size_lt
  have hrest : slice? ⟨byteLength e.before + byteLength e.inside, e.size⟩ e.source.toList =
      some e.after := by
    refine slice?_eq_some_iff.2 ⟨e.before ++ e.inside, [], ?_, ?_⟩
    · rw [List.append_nil, List.append_assoc]
      exact e.toList_source
    · rw [byteLength_append, hsize, Nat.add_assoc]
  simp only [lineStop?, h.stop?_eq, hrest, Option.bind_eq_bind, Option.bind_some]
  rcases firstIndex?_lineFeed e.after with ⟨hnone, hline⟩ | ⟨rest, hcut, hsome⟩
  · refine ⟨[], by rw [hline, List.append_nil], ?_⟩
    rw [hnone, hline, hsize, Nat.add_assoc]
  · refine ⟨'\n' :: rest, hcut, ?_⟩
    have hle : byteLength (firstLine e.after) ≤ byteLength e.after := by
      rw [congrArg byteLength hcut, byteLength_append]
      exact Nat.le_add_right _ _
    rw [hsome]
    exact add?_of_lt (by unfold limit; omega)

theorem line?_eq : e.line? = some e.line := by
  obtain ⟨head, hbefore, hstart⟩ := h.exists_lineStart?
  obtain ⟨tail, hafter, hstop⟩ := h.exists_lineStop?
  have hcut : e.source.toList =
      head ++ ((lastLine e.before ++ e.inside ++ firstLine e.after) ++ tail) :=
    calc e.source.toList = e.before ++ (e.inside ++ e.after) := e.toList_source
      _ = (head ++ lastLine e.before) ++ (e.inside ++ (firstLine e.after ++ tail)) := by
        rw [← hbefore, ← hafter]
      _ = head ++ ((lastLine e.before ++ e.inside ++ firstLine e.after) ++ tail) := by
        simp only [List.append_assoc]
  have hlength : byteLength e.before = byteLength head + byteLength (lastLine e.before) :=
    (congrArg byteLength hbefore).trans (byteLength_append head _)
  have hslice : slice? ⟨byteLength head,
      byteLength e.before + byteLength e.inside + byteLength (firstLine e.after)⟩ e.source.toList =
      some (lastLine e.before ++ e.inside ++ firstLine e.after) := by
    refine slice?_eq_some_iff.2 ⟨head, tail, hcut, ?_⟩
    rw [hlength]
    simp only [byteLength_append, Nat.add_assoc]
  simp only [line?, hstart, hstop, hslice, Option.bind_eq_bind, Option.bind_some]
  rfl

theorem window?_eq {radius : Nat} (hradius : radius < limit - 2 ^ 32) :
    e.window? radius = some (e.window radius) := by
  have hsize := e.size_eq
  have hlt := h.size_lt
  have hcount := List.count_le_length (a := '\n') (l := e.before)
  have hlength := length_le_byteLength e.before
  have hbound : e.before.count '\n' + radius + 1 < limit := by
    unfold limit at *
    omega
  have hlast : add? (e.before.count '\n') radius = some (e.before.count '\n' + radius) :=
    add?_of_lt (by omega)
  have hbeyond : add? (e.before.count '\n' + radius) 1 = some (e.before.count '\n' + radius + 1) :=
    add?_of_lt hbound
  simp only [window?, h.before?_eq, hlast, hbeyond, Option.bind_eq_bind, Option.bind_some]
  refine numbered?_eq ?_
  rw [List.length_take, List.length_drop]
  omega

end Sound

/-! ## Reports -/

/-- Where the excerpt is. -/
def location? (e : Excerpt) : Option String := do
  let position ← e.position?
  let place := position.line.repr ++ ":" ++ position.column.repr
  match e.filename with
  | some name => return name ++ ":" ++ place
  | none => return "line " ++ place

/-- What the carets point at. -/
def pointer? (e : Excerpt) : Option String := do
  let text ← e.text?
  return if text.isEmpty then "Error at this location" else "Error at '" ++ text ++ "'"

/-- The line of carets under the text of the span. -/
def caretLine? (e : Excerpt) : Option (List Segment) := do
  let position ← e.position?
  let text ← e.text?
  let indent ← sub? position.column 1
  return [.plain ("  |      | " ++ repeated indent ' '),
    .styled .marker (repeated (max 1 text.length) '^')]

/-- The line that says what the carets point at. -/
def hereLine? (e : Excerpt) : Option (List Segment) := do
  let pointer ← e.pointer?
  return [.plain "  |      +-- ", .styled .marker "Here", .plain (": " ++ pointer)]

/-- A line of the source. The one where the span starts is followed by the carets. -/
def sourceLines? (e : Excerpt) (number : Nat) (text : String) : Option (List (List Segment)) := do
  let position ← e.position?
  let margin := Segment.plain ("  |" ++ lineNumber number ++ " | ")
  if number = position.line then
    let caretLine ← e.caretLine?
    let hereLine ← e.hereLine?
    return [[margin, .plain text], caretLine, hereLine]
  else
    return [[margin, .styled .faded text]]

namespace Sound

variable {e : Excerpt} (h : e.Sound)

include h

theorem location?_eq : e.location? = some e.location := by
  simp only [location?, h.position?_eq, Option.bind_eq_bind, Option.bind_some, location]
  cases e.filename <;> rfl

theorem pointer?_eq : e.pointer? = some e.pointer := by
  simp only [pointer?, h.text?_eq, Option.bind_eq_bind, Option.bind_some]
  rfl

/-- Columns are counted from one, so the carets can be moved one column less to the right. -/
theorem caretLine?_eq : e.caretLine? = some e.caretLine := by
  have hcolumn : 1 ≤ e.position.column := Nat.le_add_left 1 _
  simp only [caretLine?, h.position?_eq, h.text?_eq, sub?_of_le hcolumn, Option.bind_eq_bind,
    Option.bind_some]
  rfl

theorem hereLine?_eq : e.hereLine? = some e.hereLine := by
  simp only [hereLine?, h.pointer?_eq, Option.bind_eq_bind, Option.bind_some]
  rfl

theorem sourceLines?_eq (number : Nat) (text : String) :
    e.sourceLines? number text = some (e.sourceLines number text) := by
  simp only [sourceLines?, h.position?_eq, h.caretLine?_eq, h.hereLine?_eq, Option.bind_eq_bind,
    Option.bind_some, sourceLines]
  split <;> rfl

end Sound

end Excerpt

namespace Diagnostic

theorem excerpt_withFilename {d : Diagnostic} {source : String} {span : Span}
    (h : d.excerpt = some ⟨none, source, span⟩) (filename : Option String) :
    (d.withFilename filename).excerpt = some ⟨filename, source, span⟩ := by
  cases filename with
  | none => exact h
  | some name => simp [withFilename, h]

/-- The lines that show the source. -/
def excerptLines? (radius : Nat) (e : Excerpt) : Option (List (List Segment)) := do
  let location ← e.location?
  let window ← e.window? radius
  let shown ← window.mapM fun (number, text) => e.sourceLines? number text
  return [barLine, [.plain "  +--> ", .styled .location "Location", .plain (": " ++ location)],
    barLine] ++ shown.flatten ++ [barLine]

/-- The lines of the report. -/
def lines? (config : ReportConfig) (d : Diagnostic) : Option (List (List Segment)) := do
  let excerpt ←
    match d.excerpt, config.showContext with
    | some e, true => excerptLines? config.contextLines e
    | _, _ => some []
  let suggestion : List (List Segment) :=
    match d.suggestion with
    | some text => [[.plain "  +--> ", .styled .suggestion "Suggestion", .plain (": " ++ text)]]
    | none => []
  return [d.headLine config, barLine, d.messageLine] ++ excerpt ++ suggestion

/-- The text of the report. -/
def report? (config : ReportConfig) (d : Diagnostic) : Option String := do
  let lines ← d.lines? config
  return String.join (lines.map (Segment.writeLine config.colours))

theorem excerptLines?_eq {e : Excerpt} (h : e.Sound) {radius : Nat}
    (hradius : radius < limit - 2 ^ 32) :
    excerptLines? radius e = some (excerptLines radius e) := by
  have hshown : (e.window radius).mapM (fun (number, text) => e.sourceLines? number text) =
      some ((e.window radius).map fun (number, text) => e.sourceLines number text) :=
    mapM_eq_some_map fun (number, text) _ => h.sourceLines?_eq number text
  simp only [excerptLines?, h.location?_eq, h.window?_eq hradius, hshown, Option.bind_eq_bind,
    Option.bind_some]
  rfl

/-- **No operation of a report fails**, if the excerpt of the diagnostic is sound. -/
theorem report?_eq {config : ReportConfig} {d : Diagnostic} (h : ∀ e ∈ d.excerpt, e.Sound)
    (hradius : config.contextLines < limit - 2 ^ 32) :
    d.report? config = some (d.report config) := by
  have hlines : d.lines? config = some (d.lines config) := by
    unfold lines? lines
    cases hexcerpt : d.excerpt with
    | none => rfl
    | some e =>
      cases config.showContext with
      | false => rfl
      | true =>
        rw [hexcerpt] at h
        simp only [excerptLines?_eq (h e rfl) hradius, Option.bind_eq_bind, Option.bind_some]
        rfl
  simp only [report?, hlines, Option.bind_eq_bind, Option.bind_some]
  rfl

end Diagnostic

end PinQuery
