import PinQuery.Decimal.Binary64

/-!
# Decimal numerals

A numeral is written as digits, an optional fraction and an optional exponent.

* `Decimal` is a coefficient and a power of ten.
* `Decimal.ofNumeral` is the value of a numeral.
* `Decimal.round` is the nearest number of the binary format.
-/

namespace PinQuery

/-- The value `coefficient * 10 ^ exponent`. -/
structure Decimal where
  coefficient : Nat
  exponent : Int
deriving DecidableEq, Repr

namespace Decimal

/-- The value of a run of digits. -/
def digitsValue (digits : List Char) : Nat := Nat.ofDigitChars 10 digits 0

/-- The value of digits with an optional sign. -/
def signedValue : List Char → Int
  | '-' :: digits => -(digitsValue digits : Int)
  | '+' :: digits => digitsValue digits
  | digits => digitsValue digits

/-- The fraction digits at the head of a text. -/
def fractionDigits : List Char → List Char
  | '.' :: cs => cs.takeWhile Char.isDigit
  | _ => []

/-- What follows the fraction at the head of a text. -/
def afterFraction : List Char → List Char
  | '.' :: cs => cs.dropWhile Char.isDigit
  | cs => cs

/-- The power of ten that an exponent mark stands for; without one it is zero. -/
def exponentValue : List Char → Int
  | 'e' :: cs => signedValue cs
  | 'E' :: cs => signedValue cs
  | _ => 0

/-- The value of a numeral: digits, an optional fraction and an optional exponent. -/
def ofNumeral (numeral : List Char) : Decimal :=
  let whole := numeral.takeWhile Char.isDigit
  let afterWhole := numeral.dropWhile Char.isDigit
  let fraction := fractionDigits afterWhole
  ⟨digitsValue (whole ++ fraction), exponentValue (afterFraction afterWhole) - fraction.length⟩

/-- The number of decimal digits of a natural number. -/
def digitCount (n : Nat) : Nat := (Nat.toDigits 10 n).length

/-- The nearest binary number. Values of at least `10 ^ 310` and below `10 ^ -330` are decided by
their size alone, so that a huge exponent costs nothing. -/
def round (negative : Bool) (d : Decimal) : Binary64 :=
  let size : Int := digitCount d.coefficient + d.exponent
  if d.coefficient = 0 then .zero negative
  else if 310 < size then .infinite negative
  else if size < -330 then .zero negative
  else
    match d.exponent with
    | .ofNat power => .ofQuotient negative (d.coefficient * Nat.pow 10 power * Binary64.one) 1
    | .negSucc power => .ofQuotient negative (d.coefficient * Binary64.one) (Nat.pow 10 (power + 1))

end Decimal

end PinQuery
