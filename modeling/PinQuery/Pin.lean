/-!
# Pins

A board has twenty-one digital and twenty-one analog pins, called `din0` to `din20` and `ain0` to
`ain20`.

* `Pin.all` is the table of pins, `Pin.lookup?` finds a name in it.
* `Pin.ofName?` takes a name apart instead: a stem and an index without leading zeros.
-/

namespace PinQuery

/-- The two kinds of pin. -/
inductive PinKind
  | digital
  | analog
deriving DecidableEq, Repr

/-- How the names of a kind of pin begin. -/
def PinKind.stem : PinKind → String
  | .digital => "din"
  | .analog => "ain"

/-- A pin. -/
structure Pin where
  kind : PinKind
  index : Nat
deriving DecidableEq, Repr

namespace Pin

/-- The greatest index of a pin. -/
def maxIndex : Nat := 20

/-- The name of a pin. -/
def name (pin : Pin) : String := pin.kind.stem ++ pin.index.repr

/-- The pins of a board: the digital ones, then the analog ones. -/
def all : List Pin :=
  (List.range (maxIndex + 1)).map (Pin.mk .digital)
    ++ (List.range (maxIndex + 1)).map (Pin.mk .analog)

/-- The names of the pins of a board. -/
def names : List String := all.map name

/-- The pin of a board with a given name. -/
def lookup? (name : String) : Option Pin := all.find? fun pin => pin.name == name

/-- The index that digits stand for: there is at least one, none is a leading zero, and the value
is not too large. -/
def indexOf? (digits : List Char) : Option Nat :=
  let value := Nat.ofDigitChars 10 digits 0
  match digits with
  | [] => none
  | '0' :: _ :: _ => none
  | _ => if digits.all Char.isDigit && value ≤ maxIndex then some value else none

/-- The pin that a name spells. -/
def ofName? (name : String) : Option Pin :=
  match name.toList with
  | 'd' :: 'i' :: 'n' :: digits => (indexOf? digits).map (Pin.mk .digital)
  | 'a' :: 'i' :: 'n' :: digits => (indexOf? digits).map (Pin.mk .analog)
  | _ => none

end Pin

end PinQuery
