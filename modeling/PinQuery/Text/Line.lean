import PinQuery.Text.Span

/-!
# Lines of a text

* `split mark` are the stretches of a text between its marks, one more than there are marks.
* `lines` are the lines as they are shown: a carriage return before a line feed is dropped, and
  there is no empty line after the last line feed.
* `Position.after before` is the line and column of the character that follows the text `before`,
  both counted from one and the column in characters.
-/

namespace PinQuery.Text

/-- The stretches of a text between the occurrences of a mark. -/
def split (mark : Char) : List Char → List (List Char)
  | [] => [[]]
  | c :: cs =>
    if c == mark then [] :: split mark cs
    else
      match split mark cs with
      | [] => [[c]]
      | piece :: rest => (c :: piece) :: rest

/-- A line without the carriage return at its end. -/
def dropReturn (line : List Char) : List Char :=
  if line.getLast? == some '\r' then line.dropLast else line

/-- The shown lines of the stretches between line feeds. The last one is not closed by a line feed:
it is kept as it is, unless it is empty. -/
def shownLines : List (List Char) → List (List Char)
  | [] => []
  | [last] => if last.isEmpty then [] else [last]
  | piece :: rest => dropReturn piece :: shownLines rest

/-- The lines of a text as they are shown. -/
def lines (cs : List Char) : List (List Char) := shownLines (split '\n' cs)

/-- The part of a text after its last line feed. -/
def lastLine (cs : List Char) : List Char := (cs.reverse.takeWhile (· != '\n')).reverse

/-- The part of a text before its first line feed. -/
def firstLine (cs : List Char) : List Char := cs.takeWhile (· != '\n')

end PinQuery.Text

namespace PinQuery

/-- A line and a column, both counted from one. -/
structure Position where
  line : Nat
  column : Nat
deriving DecidableEq, Repr

/-- The position of the character that follows a text. -/
def Position.after (before : List Char) : Position :=
  ⟨before.count '\n' + 1, (Text.lastLine before).length + 1⟩

end PinQuery
