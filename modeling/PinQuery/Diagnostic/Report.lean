import PinQuery.Diagnostic.Basic
import PinQuery.Diagnostic.Style

/-!
# Reports

The text that is shown for a diagnostic:

    Error: SemanticError [E3001]
      |
      | Message: Unknown column 'foo'
      |
      +--> Location: line 1:8
      |
      |    1 | SELECT foo FROM board
      |      |        ^^^
      |      +-- Here: Error at 'foo'
      |
      +--> Suggestion: Pins are named din0..din20 and ain0..ain20

`Diagnostic.lines` are the lines of the report as segments, `Diagnostic.report` is its text.
-/

namespace PinQuery

/-- What a report shows. -/
structure ReportConfig where
  showCodes : Bool
  showContext : Bool
  contextLines : Nat
  colours : Bool
deriving DecidableEq, Repr

namespace ReportConfig

/-- Everything, with two lines of context on each side, in colours. -/
def full : ReportConfig := ⟨true, true, 2, true⟩

/-- The code and the message. -/
def minimal : ReportConfig := ⟨true, false, 0, false⟩

end ReportConfig

/-- A number in at least five columns, to the right. -/
def lineNumber (n : Nat) : String :=
  String.ofList (List.replicate (5 - n.repr.length) ' ') ++ n.repr

/-- A text of one character. -/
def repeated (count : Nat) (c : Char) : String := String.ofList (List.replicate count c)

namespace Excerpt

/-- Where the excerpt is. -/
def location (e : Excerpt) : String :=
  let place := e.position.line.repr ++ ":" ++ e.position.column.repr
  match e.filename with
  | some name => name ++ ":" ++ place
  | none => "line " ++ place

/-- What the carets point at. -/
def pointer (e : Excerpt) : String :=
  if e.text.isEmpty then "Error at this location" else "Error at '" ++ e.text ++ "'"

/-- The line of carets under the text of the span. -/
def caretLine (e : Excerpt) : List Segment :=
  [.plain ("  |      | " ++ repeated (e.position.column - 1) ' '),
    .styled .marker (repeated (max 1 e.text.length) '^')]

/-- The line that says what the carets point at. -/
def hereLine (e : Excerpt) : List Segment :=
  [.plain "  |      +-- ", .styled .marker "Here", .plain (": " ++ e.pointer)]

/-- A line of the source. The one where the span starts is followed by the carets. -/
def sourceLines (e : Excerpt) (number : Nat) (text : String) : List (List Segment) :=
  let margin := Segment.plain ("  |" ++ lineNumber number ++ " | ")
  if number = e.position.line then [[margin, .plain text], e.caretLine, e.hereLine]
  else [[margin, .styled .faded text]]

end Excerpt

namespace Diagnostic

/-- An empty line of the frame. -/
def barLine : List Segment := [.plain "  ", .styled .bar "|"]

/-- The first line. -/
def headLine (config : ReportConfig) (d : Diagnostic) : List Segment :=
  let code : List Segment :=
    match d.code, config.showCodes with
    | some code, true => [.plain " [", .styled .faded code.text, .plain "]"]
    | _, _ => []
  let title : List Segment :=
    match d.title with
    | some title => [.plain (": " ++ title)]
    | none => []
  [.styled .label "Error", .plain ": ", .styled .category (d.category.getD "Error")] ++ code
    ++ title

/-- The line with the message. -/
def messageLine (d : Diagnostic) : List Segment :=
  barLine ++ [.plain " ", .styled .message "Message", .plain (": " ++ d.message)]

/-- The lines that show the source. -/
def excerptLines (radius : Nat) (e : Excerpt) : List (List Segment) :=
  [barLine, [.plain "  +--> ", .styled .location "Location", .plain (": " ++ e.location)], barLine]
    ++ (e.window radius).flatMap (fun (number, text) => e.sourceLines number text) ++ [barLine]

/-- The lines of the report. -/
def lines (config : ReportConfig) (d : Diagnostic) : List (List Segment) :=
  let excerpt : List (List Segment) :=
    match d.excerpt, config.showContext with
    | some e, true => excerptLines config.contextLines e
    | _, _ => []
  let suggestion : List (List Segment) :=
    match d.suggestion with
    | some text => [[.plain "  +--> ", .styled .suggestion "Suggestion", .plain (": " ++ text)]]
    | none => []
  [d.headLine config, barLine, d.messageLine] ++ excerpt ++ suggestion

/-- The text of the report. -/
def report (config : ReportConfig) (d : Diagnostic) : String :=
  String.join ((d.lines config).map (Segment.writeLine config.colours))

end Diagnostic

end PinQuery
