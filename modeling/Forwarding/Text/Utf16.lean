/-!
# UTF-16

Text as 16-bit units.  A character beyond the basic plane is a pair of
surrogates, a high one before a low one; a surrogate on its own is no text.
-/

namespace Forwarding.Text

def isHighSurrogate (unit : Nat) : Bool :=
  0xD800 ≤ unit && unit ≤ 0xDBFF

def isLowSurrogate (unit : Nat) : Bool :=
  0xDC00 ≤ unit && unit ≤ 0xDFFF

/-- The character that a pair of surrogates stands for. -/
def joinSurrogates (high low : Nat) : Char :=
  Char.ofNat (0x10000 + (high - 0xD800) * 0x400 + (low - 0xDC00))

def ofUtf16? : List Nat → Option (List Char)
  | [] => some []
  | unit :: rest =>
      if isHighSurrogate unit then
        match rest with
        | low :: rest =>
            if isLowSurrogate low then
              (ofUtf16? rest).map (joinSurrogates unit low :: ·)
            else none
        | [] => none
      else if isLowSurrogate unit then none
      else (ofUtf16? rest).map (Char.ofNat unit :: ·)

/-- The units of a character: itself, or a pair of surrogates. -/
def utf16Units (c : Char) : List Nat :=
  if c.toNat < 0x10000 then [c.toNat]
  else
    [0xD800 + (c.toNat - 0x10000) / 0x400, 0xDC00 + (c.toNat - 0x10000) % 0x400]

end Forwarding.Text
