/-!
# Binary floating point

A word of a binary interchange format stands for a sign and a magnitude.  A
finite magnitude is an integer times a power of two, together with the widths
of the gaps to its two neighbours.
-/

namespace Forwarding.Decimal

structure BinaryFormat where
  fractionBits : Nat
  exponentBits : Nat

def single : BinaryFormat := ⟨23, 8⟩

def double : BinaryFormat := ⟨52, 11⟩

/-- A finite magnitude `mantissa · 2 ^ exponent`.  Below a power of two the
neighbour is only half as far away as above it. -/
structure Magnitude where
  mantissa : Nat
  exponent : Int
  narrowBelow : Bool
  deriving DecidableEq, Repr

inductive FloatValue
  | nan
  | infinite (negative : Bool)
  | finite (negative : Bool) (magnitude : Magnitude)
  deriving DecidableEq, Repr

/-- Takes a word of the format apart. -/
def BinaryFormat.decode (format : BinaryFormat) (bits : Nat) : FloatValue :=
  let fractions := Nat.pow 2 format.fractionBits
  let exponents := Nat.pow 2 format.exponentBits
  let fraction := bits % fractions
  let biased := bits / fractions % exponents
  let negative := bits / (fractions * exponents) % 2 = 1
  let bias : Int := Nat.pow 2 (format.exponentBits - 1) - 1
  if biased = exponents - 1 then
    if fraction = 0 then .infinite negative else .nan
  else if biased = 0 then
    .finite negative ⟨fraction, 1 - bias - format.fractionBits, false⟩
  else
    .finite negative
      ⟨fractions + fraction, biased - bias - format.fractionBits,
        fraction = 0 ∧ 1 < biased⟩

end Forwarding.Decimal
