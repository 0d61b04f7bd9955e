import Forwarding.Decimal.Shortest

/-!
# Decimal text

How the digits of a decimal are laid out.  Numbers whose first digit stands
within a range of decimal places are written positionally and keep at least
one place behind the point; all others are written with an exponent.
-/

namespace Forwarding.Decimal

structure Layout where
  /-- The least exponent of a first digit that is written positionally. -/
  firstPositional : Int
  /-- The least exponent of a first digit that no longer is. -/
  endPositional : Int
  nan : String
  infinity : String

/-- Numbers from `0.0001` up to `10 ^ 16` are written positionally. -/
def plain : Layout := ⟨-4, 16, "NaN", "inf"⟩

private def zeros (count : Nat) : List Char :=
  List.replicate count '0'

/-- Digits with the point placed so that the first one has the given
exponent. -/
def positional (digits : List Char) (leading : Int) : List Char :=
  if leading < 0 then
    '0' :: '.' :: zeros (-leading - 1).toNat ++ digits
  else
    let whole := leading.toNat + 1
    let front := digits.take whole ++ zeros (whole - digits.length)
    let back := digits.drop whole
    front ++ '.' :: if back.isEmpty then ['0'] else back

/-- Digits with the point behind the first one and an exponent. -/
def scientific (digits : List Char) (leading : Int) : List Char :=
  let back := digits.drop 1
  let front := digits.take 1 ++ if back.isEmpty then [] else '.' :: back
  front ++ 'e' :: (toString leading).toList

def trimZeros (digits : List Char) : List Char :=
  (digits.reverse.dropWhile (· = '0')).reverse

def Layout.magnitude (layout : Layout) (d : Digits) : String :=
  let digits := Nat.toDigits 10 d.digits
  let leading := d.exponent + (digits.length - 1 : Nat)
  let kept := trimZeros digits
  String.ofList <|
    if d.digits = 0 then positional ['0'] 0
    else if layout.firstPositional ≤ leading ∧ leading < layout.endPositional then
      positional kept leading
    else scientific kept leading

private def signed (negative : Bool) (text : String) : String :=
  if negative then "-" ++ text else text

/-- The text of a word of a binary format. -/
def Layout.text (layout : Layout) (format : BinaryFormat) (bits : Nat) : String :=
  match format.decode bits with
  | .nan => layout.nan
  | .infinite negative => signed negative layout.infinity
  | .finite negative magnitude =>
      signed negative <| layout.magnitude <|
        if magnitude.mantissa = 0 then ⟨0, 0⟩ else magnitude.shortest

end Forwarding.Decimal
