import PinQuery.Decimal.Shortest

/-!
# The text of a binary number

`Binary64.text` writes a number with the shortest digits that read back, positionally or with an
exponent as a `Layout` says. A fraction is always shown positionally (`100.0`), and negative zero
keeps its sign. `Binary64.parse?` reads such texts.
-/

namespace PinQuery

/-- How numbers are laid out: the exponents from `least` up to but not including `beyond` are
written positionally, `plus` marks positive exponents, and `tie` decides between two digits. -/
structure Layout where
  least : Int
  beyond : Int
  plus : Bool
  tie : Tie
deriving DecidableEq, Repr

namespace Layout

/-- The digits of a coefficient without the zeros at its end. -/
def significant (coefficient : Nat) : List Char :=
  ((Nat.toDigits 10 coefficient).reverse.dropWhile (· == '0')).reverse

/-- Digits with the point behind the `places + 1`-th of them. -/
def positional (digits : List Char) (places : Nat) : List Char :=
  if digits.length ≤ places + 1 then
    digits ++ List.replicate (places + 1 - digits.length) '0' ++ ['.', '0']
  else
    digits.take (places + 1) ++ '.' :: digits.drop (places + 1)

/-- Digits behind the point, with `zeros` zeros between. -/
def fractional (digits : List Char) (zeros : Nat) : List Char :=
  '0' :: '.' :: (List.replicate zeros '0' ++ digits)

/-- One digit, the others as a fraction. -/
def mantissa : List Char → List Char
  | [] => []
  | [digit] => [digit]
  | digit :: digits => digit :: '.' :: digits

/-- The exponent mark of a power of ten. -/
def exponentMark (layout : Layout) (power : Int) : List Char :=
  let sign := if power < 0 then ['-'] else if layout.plus then ['+'] else []
  'e' :: (sign ++ Nat.toDigits 10 power.natAbs)

/-- The text of a decimal that is not zero. -/
def decimal (layout : Layout) (d : Decimal) : List Char :=
  let digits := significant d.coefficient
  let power : Int := d.exponent + Decimal.digitCount d.coefficient - 1
  if power < layout.least ∨ layout.beyond ≤ power then
    mantissa digits ++ layout.exponentMark power
  else
    match power with
    | .ofNat places => positional digits places
    | .negSucc zeros => fractional digits zeros

/-- The text of a magnitude. -/
def magnitude (layout : Layout) (m : Magnitude) : List Char :=
  if m.units = 0 then ['0', '.', '0'] else layout.decimal (m.shortest layout.tie)

end Layout

namespace Binary64

/-- The text of a number. -/
def text (layout : Layout) : Binary64 → String
  | .nan => "NaN"
  | .infinite negative => if negative then "-inf" else "inf"
  | .finite negative magnitude =>
    let digits := String.ofList (layout.magnitude magnitude)
    if negative then "-" ++ digits else digits

/-- The number that a decimal text without sign stands for. -/
def parseUnsigned? (negative : Bool) (text : List Char) : Option Binary64 :=
  match text with
  | [] => none
  | c :: _ =>
    if c.isDigit then some ((Decimal.ofNumeral text).round negative)
    else if text == ['i', 'n', 'f'] then some (.infinite negative)
    else if text == ['N', 'a', 'N'] then some .nan
    else none

/-- The number that a text stands for: a decimal, `inf` or `NaN`, with an optional sign. -/
def parse? (text : String) : Option Binary64 :=
  match text.toList with
  | '-' :: cs => parseUnsigned? true cs
  | '+' :: cs => parseUnsigned? false cs
  | cs => parseUnsigned? false cs

end Binary64

end PinQuery
