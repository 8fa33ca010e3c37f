import PinQuery.Decimal.Layout

/-!
# Numbers of a query

A number in a query is a 64-bit integer or a binary floating-point number.

* `Number.ofNumeral?` reads the text of a number token; a numeral without point and exponent is an
  integer and has to fit, any other is a float and has to be finite.
* `Number.text` is the canonical text, `Number.json` the text inside a JSON document.
* `Number.milliseconds` takes the number as seconds.
-/

namespace PinQuery

/-- A number of a query. -/
inductive Number
  | int (value : Int64)
  | float (value : Binary64)
deriving DecidableEq

namespace Number

/-- The layout of floats in canonical text: positional from `10 ^ -4` to below `10 ^ 16`. -/
def canonicalLayout : Layout := ⟨-4, 16, false, .larger⟩

/-- The layout of floats in JSON: positional from `10 ^ -5` to below `10 ^ 16`, and a plus before a
positive exponent. -/
def jsonLayout : Layout := ⟨-5, 16, true, .even⟩

/-- The greatest integer. -/
def maxInt : Int := 9223372036854775807

/-- The least integer. -/
def minInt : Int := -9223372036854775808

/-- The characters that make a numeral a float. -/
def isFloatMark (c : Char) : Bool := c == '.' || c == 'e' || c == 'E'

/-- The number that an unsigned numeral stands for, if it fits. -/
def ofNumeral? (numeral : List Char) : Option Number :=
  if numeral.any isFloatMark then
    let value := (Decimal.ofNumeral numeral).round false
    if value.isFinite then some (.float value) else none
  else
    let value := Decimal.digitsValue numeral
    if value ≤ maxInt then some (.int (.ofNat value)) else none

/-- The canonical text. -/
def text : Number → String
  | .int value => value.toInt.repr
  | .float value => value.text canonicalLayout

/-- The text in a JSON document, which has no infinities. -/
def json : Number → String
  | .int value => value.toInt.repr
  | .float value => if value.isFinite then value.text jsonLayout else "null"

/-- The number as a float; a large integer is rounded. -/
def toFloat : Number → Binary64
  | .int value => .ofInt value.toInt
  | .float value => value

/-- Greater than zero. -/
def isPositive : Number → Bool
  | .int value => 0 < value
  | .float value => value.isPositive

/-- The opposite number. The least integer is its own opposite. -/
def negate : Number → Number
  | .int value => .int (-value)
  | .float value => .float value.neg

/-- The whole milliseconds of a number of seconds, kept in the range of integers. -/
def milliseconds : Number → Int64
  | .int value => .ofInt (max minInt (min maxInt (value.toInt * 1000)))
  | .float value => .ofInt ((value.scale 1000).truncate minInt maxInt)

/-- The greatest whole number of 32 bits. -/
def maxWord : Nat := 4294967295

/-- The number as a whole number of 32 bits: the fraction is dropped and what lies outside the range
becomes its nearest end. -/
def toWord (number : Number) : Nat := (number.toFloat.truncate 0 maxWord).toNat

end Number

end PinQuery
