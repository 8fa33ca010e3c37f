/-!
# Byte spans of a text

Positions in a source text are byte offsets in its UTF-8 encoding. This module has the spans and
the cuts of a text at byte offsets.

* `Span` is a half-open range of offsets.
* `byteLength cs` is the number of bytes of the characters `cs`.
* `takeBytes n cs` and `dropBytes n cs` cut `cs` at the offset `n`; together they lose nothing
  (`takeBytes_append_dropBytes`). An offset past the end cuts at the end.
* `slice? s cs` is the text under a span, if the span lies on character boundaries inside `cs`.
-/

namespace PinQuery

/-- A half-open range of byte offsets. Offsets have no bound. In a source below `2 ^ 32` bytes all of
them fit into 32 bits, and reading with offsets of 32 bits gives the same (`Query.parse?_eq`). -/
structure Span where
  start : Nat
  stop : Nat
deriving DecidableEq, Repr, Inhabited

namespace Span

/-- The empty span at an offset. -/
def empty (offset : Nat) : Span := ⟨offset, offset⟩

/-- From the start of the first span to the end of the second. -/
def cover (s t : Span) : Span := ⟨s.start, t.stop⟩

end Span

namespace Text

/-- The number of bytes of a text. -/
def byteLength : List Char → Nat
  | [] => 0
  | c :: cs => c.utf8Size + byteLength cs

/-- The longest run of leading characters that fits into `n` bytes. -/
def takeBytes (n : Nat) : List Char → List Char
  | [] => []
  | c :: cs => if c.utf8Size ≤ n then c :: takeBytes (n - c.utf8Size) cs else []

/-- What `takeBytes` leaves. -/
def dropBytes (n : Nat) : List Char → List Char
  | [] => []
  | c :: cs => if c.utf8Size ≤ n then dropBytes (n - c.utf8Size) cs else c :: cs

@[simp] theorem takeBytes_append_dropBytes (n : Nat) (cs : List Char) :
    takeBytes n cs ++ dropBytes n cs = cs := by
  induction cs generalizing n with
  | nil => rfl
  | cons c cs ih =>
    by_cases h : c.utf8Size ≤ n
    · simp [takeBytes, dropBytes, h, ih]
    · simp [takeBytes, dropBytes, h]

@[simp] theorem byteLength_append (cs ds : List Char) :
    byteLength (cs ++ ds) = byteLength cs + byteLength ds := by
  induction cs with
  | nil => simp [byteLength]
  | cons c cs ih => simp only [List.cons_append, byteLength, ih]; omega

theorem takeBytes_byteLength_append (cs ds : List Char) :
    takeBytes (byteLength cs) (cs ++ ds) = cs := by
  induction cs with
  | nil =>
    cases ds with
    | nil => rfl
    | cons d ds =>
      have := d.utf8Size_pos
      simp only [byteLength, List.nil_append, takeBytes]
      rw [if_neg (by omega)]
  | cons c cs ih => simp [byteLength, takeBytes, ih]

/-- The text under a span, if both ends are character boundaries inside the text and in order. -/
def slice? (span : Span) (cs : List Char) : Option (List Char) :=
  let before := takeBytes span.start cs
  let inside := takeBytes (span.stop - span.start) (dropBytes span.start cs)
  if byteLength before = span.start ∧ span.start + byteLength inside = span.stop then
    some inside
  else
    none

end Text

end PinQuery
