import Forwarding.Decimal.Binary

/-!
# Shortest decimals

The decimal that stands for a binary magnitude is the one with the fewest
digits among those that round to it, and of these the nearest.  All numbers
are compared exactly, as fractions of natural numbers.
-/

namespace Forwarding.Decimal

/-- The decimal `digits · 10 ^ exponent`. -/
structure Digits where
  digits : Nat
  exponent : Int
  deriving DecidableEq, Repr

/-- A magnitude and the ends of the interval that rounds to it, over one
denominator.  The ends belong to the interval when the mantissa is even. -/
structure Rounding where
  low : Nat
  value : Nat
  high : Nat
  denominator : Nat
  closed : Bool
  deriving DecidableEq, Repr

def Magnitude.rounding (m : Magnitude) : Rounding :=
  let quarter := m.exponent - 2
  let scale := Nat.pow 2 quarter.toNat
  { low := (4 * m.mantissa - if m.narrowBelow then 1 else 2) * scale
    value := 4 * m.mantissa * scale
    high := (4 * m.mantissa + 2) * scale
    denominator := Nat.pow 2 (-quarter).toNat
    closed := m.mantissa % 2 = 0 }

namespace Rounding

/-- The numbers that `digits · 10 ^ exponent` and the fraction `n` are compared
by. -/
def scaled (r : Rounding) (d : Digits) (n : Nat) : Nat × Nat :=
  (d.digits * Nat.pow 10 d.exponent.toNat * r.denominator,
    n * Nat.pow 10 (-d.exponent).toNat)

/-- Whether reading the decimal gives the magnitude. -/
def contains (r : Rounding) (d : Digits) : Bool :=
  let (decimal, low) := r.scaled d r.low
  let (_, high) := r.scaled d r.high
  if r.closed then low ≤ decimal && decimal ≤ high
  else low < decimal && decimal < high

/-- The greatest multiple of `10 ^ exponent` that is not above the value. -/
def floorAt (r : Rounding) (exponent : Int) : Digits :=
  ⟨r.value * Nat.pow 10 (-exponent).toNat / (r.denominator * Nat.pow 10 exponent.toNat),
    exponent⟩

/-- Whether the upper of two neighbouring decimals is at least as near to the
value as the lower one. -/
def nearerAbove (r : Rounding) (below : Digits) : Bool :=
  let (decimal, value) := r.scaled ⟨2 * below.digits + 1, below.exponent⟩ (2 * r.value)
  decimal ≤ value

/-- The decimal on the grid of `10 ^ exponent` that rounds to the value, if one
does; the nearer of two, and the upper one of two that are equally near. -/
def onGrid? (r : Rounding) (exponent : Int) : Option Digits :=
  let below := r.floorAt exponent
  let above : Digits := ⟨below.digits + 1, exponent⟩
  match r.contains below, r.contains above with
  | true, true => some (if r.nearerAbove below then above else below)
  | true, false => some below
  | false, true => some above
  | false, false => none

/-- The number of decimal places by which a value below one must be shifted to
reach one. -/
def leadingZeros (denominator : Nat) : Nat → Nat → Nat
  | 0, _ => 0
  | fuel + 1, value =>
      if denominator ≤ value then 0
      else leadingZeros denominator fuel (10 * value) + 1

/-- The decimal exponent of the value's first digit. -/
def leadingExponent (r : Rounding) : Int :=
  if r.denominator ≤ r.value then
    (Nat.toDigits 10 (r.value / r.denominator)).length - 1
  else
    -leadingZeros r.denominator r.denominator.log2 r.value

/-- Searches ever finer grids, of which the first has its point at
`exponent`. -/
def search (r : Rounding) : Nat → Int → Digits
  | 0, exponent => r.floorAt exponent
  | fuel + 1, exponent =>
      match r.onGrid? exponent with
      | some d => d
      | none => search r fuel (exponent - 1)

end Rounding

/-- No binary format here needs more digits than this to be told apart. -/
def maxDigits : Nat := 17

/-- The fewest digits that read back as the magnitude. -/
def Magnitude.shortest (m : Magnitude) : Digits :=
  let r := m.rounding
  r.search maxDigits r.leadingExponent

end Forwarding.Decimal
