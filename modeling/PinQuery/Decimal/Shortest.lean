import PinQuery.Decimal.Numeral

/-!
# The shortest decimal of a binary number

Many decimals round to one binary number. `Magnitude.shortest` takes one with the fewest digits,
and of those the nearest.

* `RoundingInterval` holds the decimals that round to a magnitude: those between the midpoints to
  its two neighbours, the midpoints included when its last bit is zero.
* `Magnitude.nearest?` tries the multiples of a power of ten. Only the two next to the magnitude
  have to be tried: if any multiple lies in the interval, so does one of these.
* `Magnitude.shortest` tries the powers of ten from coarse to fine. The exact expansion, a multiple
  of `10 ^ -1074`, closes the search.
-/

namespace PinQuery

/-- Which of two equally near candidates is taken: the larger, or the even one. -/
inductive Tie
  | larger
  | even
deriving DecidableEq, Repr

/-- A range of values in quarters of a unit, with or without its ends. -/
structure RoundingInterval where
  low : Nat
  high : Nat
  closed : Bool
deriving DecidableEq, Repr

/-- Whether `num / den` units lie in the interval. -/
def RoundingInterval.contains (i : RoundingInterval) (num den : Nat) : Bool :=
  if i.closed then i.low * den ≤ 4 * num && 4 * num ≤ i.high * den
  else i.low * den < 4 * num && 4 * num < i.high * den

namespace Magnitude

/-- The values that round to a magnitude. Below a power of two the neighbour is half as far. -/
def interval (m : Magnitude) : RoundingInterval :=
  let step := Binary64.spacing m.units
  let below := if m.units = Nat.pow 2 52 * step ∧ 1 < step then step else 2 * step
  ⟨4 * m.units - below, 4 * m.units + 2 * step, m.units / step % 2 == 0⟩

/-- A magnitude as a multiple of `10 ^ power`: numerator and denominator of the factor. -/
def multiple (m : Magnitude) (power : Int) : Nat × Nat :=
  match power with
  | .ofNat p => (m.units, Binary64.one * Nat.pow 10 p)
  | .negSucc p => (m.units * Nat.pow 10 (p + 1), Binary64.one)

/-- The value of `c * 10 ^ power` in units: numerator and denominator. -/
def unitsAt (c : Nat) (power : Int) : Nat × Nat :=
  match power with
  | .ofNat p => (c * (Binary64.one * Nat.pow 10 p), 1)
  | .negSucc p => (c * Binary64.one, Nat.pow 10 (p + 1))

/-- Whether `c * 10 ^ power` rounds to the magnitude. -/
def admits (m : Magnitude) (power : Int) (c : Nat) : Bool :=
  let (num, den) := unitsAt c power
  m.interval.contains num den

/-- The multiple of `10 ^ power` that rounds to the magnitude and is nearest to it, if any does. -/
def nearest? (tie : Tie) (m : Magnitude) (power : Int) : Option Nat :=
  let (num, den) := m.multiple power
  let down := num / den
  let up := down + 1
  match m.admits power down, m.admits power up with
  | false, false => none
  | true, false => some down
  | false, true => some up
  | true, true =>
    if 2 * num < (down + up) * den then some down
    else if (down + up) * den < 2 * num then some up
    else
      match tie with
      | .larger => some up
      | .even => if down % 2 = 0 then some down else some up

/-- The power of ten of the leading digit of a magnitude that is not zero. -/
def leadingPower (m : Magnitude) : Int :=
  if Binary64.one ≤ m.units then Decimal.digitCount (m.units / Binary64.one) - 1
  else -Decimal.digitCount ((Binary64.one - 1) / m.units)

/-- The magnitude itself as a decimal. -/
def exact (m : Magnitude) : Decimal := ⟨m.units * Nat.pow 5 1074, -1074⟩

/-- The first hit among `count` powers of ten from `power` downwards, else the exact expansion. -/
def search (tie : Tie) (m : Magnitude) : Nat → Int → Decimal
  | 0, _ => m.exact
  | count + 1, power =>
    match m.nearest? tie power with
    | some c => ⟨c, power⟩
    | none => search tie m count (power - 1)

/-- A decimal with the fewest digits that rounds to the magnitude, and the nearest of those. -/
def shortest (tie : Tie) (m : Magnitude) : Decimal := m.search tie 17 m.leadingPower

end Magnitude

end PinQuery
