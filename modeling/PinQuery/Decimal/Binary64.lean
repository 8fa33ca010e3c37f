/-!
# Binary floating-point numbers

The finite numbers of the 64-bit binary format are multiples of `2 ^ -1074`. A magnitude is kept as
the natural number of these units, so that every operation is exact arithmetic on natural numbers
followed by one rounding.

* `Representable units` holds of the counts that need at most 53 bits and lie below `2 ^ 1024`.
* `Binary64` are the finite numbers with their sign (zero has two), the infinities and a NaN.
* `Binary64.ofQuotient` rounds a quotient to the nearest number, a half to the even neighbour.
* `Binary64.truncate` drops the fraction and stays between two bounds.
-/

namespace PinQuery

/-- The number of units in one. -/
def Binary64.one : Nat := Nat.pow 2 1074

/-- A count of units that is a finite magnitude: it has at most 53 significant bits and the value
lies below `2 ^ 1024`. -/
def Representable (units : Nat) : Prop :=
  Nat.pow 2 (units.log2 - 52) ∣ units ∧ units < Nat.pow 2 2098

instance (units : Nat) : Decidable (Representable units) :=
  inferInstanceAs (Decidable (_ ∧ _))

/-- A finite magnitude, in units of `2 ^ -1074`. -/
structure Magnitude where
  units : Nat
  representable : Representable units
deriving DecidableEq

/-- The numbers of the 64-bit binary format. -/
inductive Binary64
  | nan
  | infinite (negative : Bool)
  | finite (negative : Bool) (magnitude : Magnitude)
deriving DecidableEq

namespace Binary64

/-- The quotient `num / den` as a whole number, to the nearest and a half to the even neighbour. -/
def roundHalfEven (num den : Nat) : Nat :=
  let quotient := num / den
  let remainder := num % den
  if 2 * remainder < den then quotient
  else if den < 2 * remainder then quotient + 1
  else if quotient % 2 = 0 then quotient
  else quotient + 1

/-- The spacing of the magnitudes around a count of units: 53 bits are kept. -/
def spacing (units : Nat) : Nat := Nat.pow 2 (units.log2 - 52)

/-- The quotient `num / den` in units, rounded to the spacing at its size. -/
def roundUnits (num den : Nat) : Nat :=
  let step := spacing (num / den)
  roundHalfEven num (den * step) * step

/-- The number with a given magnitude; infinite when the magnitude is too large. -/
def ofUnits (negative : Bool) (units : Nat) : Binary64 :=
  if h : Representable units then .finite negative ⟨units, h⟩ else .infinite negative

/-- The number nearest to `num / den` units. -/
def ofQuotient (negative : Bool) (num den : Nat) : Binary64 :=
  ofUnits negative (roundUnits num den)

/-- Zero with a sign. -/
def zero (negative : Bool) : Binary64 := ofUnits negative 0

/-- The number nearest to an integer. -/
def ofInt (value : Int) : Binary64 := ofQuotient (value < 0) (value.natAbs * one) 1

/-- The number with the other sign. -/
def neg : Binary64 → Binary64
  | .nan => .nan
  | .infinite negative => .infinite !negative
  | .finite negative magnitude => .finite (!negative) magnitude

/-- The product with a positive whole number, rounded. -/
def scale (factor : Nat) : Binary64 → Binary64
  | .nan => .nan
  | .infinite negative => .infinite negative
  | .finite negative magnitude => ofQuotient negative (magnitude.units * factor) 1

/-- Greater than zero. -/
def isPositive : Binary64 → Bool
  | .nan => false
  | .infinite negative => !negative
  | .finite negative magnitude => !negative && magnitude.units != 0

/-- Neither infinite nor a NaN. -/
def isFinite : Binary64 → Bool
  | .finite _ _ => true
  | _ => false

/-- The whole part of a number, kept between two bounds; a NaN gives zero. -/
def truncate (least greatest : Int) : Binary64 → Int
  | .nan => 0
  | .infinite negative => if negative then least else greatest
  | .finite negative magnitude =>
    let whole : Int := (magnitude.units / one : Nat)
    max least (min greatest (if negative then -whole else whole))

end Binary64

end PinQuery
