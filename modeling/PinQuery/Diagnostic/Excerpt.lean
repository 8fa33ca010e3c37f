import PinQuery.Text.Blank
import PinQuery.Text.Line

/-!
# Excerpts of a source

An excerpt is a source with a span in it. A span past the end of the source is cut at the end.

* `Excerpt.position` is the line and column of the start of the span.
* `Excerpt.text` is the text under the span, without blanks at its ends.
* `Excerpt.window n` are the lines up to `n` lines away from the start of the span, with their
  numbers.
-/

namespace PinQuery

/-- A source, a span in it, and the name of the file it was read from. -/
structure Excerpt where
  filename : Option String
  source : String
  span : Span
deriving DecidableEq, Repr

namespace Excerpt

/-- The source before the span. -/
def before (e : Excerpt) : List Char := Text.takeBytes e.span.start e.source.toList

/-- The source from the start of the span. -/
def fromStart (e : Excerpt) : List Char := Text.dropBytes e.span.start e.source.toList

/-- The source under the span. -/
def inside (e : Excerpt) : List Char := Text.takeBytes (e.span.stop - e.span.start) e.fromStart

/-- The source after the span. -/
def after (e : Excerpt) : List Char := Text.dropBytes (e.span.stop - e.span.start) e.fromStart

/-- Where the span starts. -/
def position (e : Excerpt) : Position := .after e.before

/-- The whole lines that the span touches. -/
def line (e : Excerpt) : String :=
  String.ofList (Text.lastLine e.before ++ e.inside ++ Text.firstLine e.after)

/-- The text under the span, without blanks at its ends. -/
def text (e : Excerpt) : String := String.ofList (Text.trim e.inside)

/-- The lines at most `radius` lines away from the start of the span, with their numbers. -/
def window (e : Excerpt) (radius : Nat) : List (Nat × String) :=
  let lines := Text.lines e.source.toList
  let index := e.before.count '\n'
  let first := index - radius
  let beyond := min (index + radius + 1) lines.length
  (((lines.drop first).take (beyond - first)).zipIdx (first + 1)).map fun (line, number) =>
    (number, String.ofList line)

end Excerpt

end PinQuery
