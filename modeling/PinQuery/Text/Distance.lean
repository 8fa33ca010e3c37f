/-!
# Edit distance

The distance of two texts is the least number of characters to insert, delete or replace to get
from one to the other.

* `distances xs ys` are the distances from `xs` to every end of `ys`, from the whole of `ys` to
  nothing, computed row by row.
* `distance xs ys` is the first of them.
* `closest? name candidates` is the first of the nearest candidates, if one is at most two edits
  away from the name in lower case.
-/

namespace PinQuery.Text

/-- The distances from nothing to every end of a text. -/
def deletions : List Char → List Nat
  | [] => [0]
  | _ :: ys => (ys.length + 1) :: deletions ys

/-- The row of distances for one more character `x` in front, from the row without it. -/
def extendRow (x : Char) : List Char → List Nat → List Nat
  | [], row => [row.headD 0 + 1]
  | y :: ys, row =>
    let rest := extendRow x ys row.tail
    let replaced := row.tail.headD 0 + if x == y then 0 else 1
    min (min (row.headD 0 + 1) (rest.headD 0 + 1)) replaced :: rest

/-- The distances from a text to every end of another. -/
def distances : List Char → List Char → List Nat
  | [], ys => deletions ys
  | x :: xs, ys => extendRow x ys (distances xs ys)

/-- The edit distance of two texts. -/
def distance (xs ys : List Char) : Nat := (distances xs ys).headD 0

/-- The better of a best candidate with its distance and another candidate. -/
def better (name : List Char) (best : Option (Nat × String)) (candidate : String) :
    Option (Nat × String) :=
  let edits := distance name candidate.toList
  if 2 < edits then best
  else
    match best with
    | none => some (edits, candidate)
    | some (least, _) => if edits < least then some (edits, candidate) else best

/-- The first of the candidates that are nearest to a name, at most two edits away. Only the name
is put in lower case. -/
def closest? (name : String) (candidates : List String) : Option String :=
  (candidates.foldl (better name.toLower.toList) none).map (·.2)

end PinQuery.Text
