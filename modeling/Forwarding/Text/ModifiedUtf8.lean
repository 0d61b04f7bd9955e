import Forwarding.Error
import Forwarding.Text.Utf16

/-!
# Modified UTF-8

The encoding of strings in class files.  It writes UTF-16 units, not
characters: one byte for the units from 1 to 7F, two for zero and up to 7FF,
three for the rest, so that a character beyond the basic plane takes six.
Most strings are plain UTF-8 as well and need no detour through units.
-/

namespace Forwarding.Text.ModifiedUtf8

/-! ## Writing -/

def encodeUnit (unit : Nat) : List UInt8 :=
  if 0 < unit ∧ unit < 0x80 then [UInt8.ofNat unit]
  else if unit < 0x800 then
    [UInt8.ofNat (0xC0 + unit / 0x40), UInt8.ofNat (0x80 + unit % 0x40)]
  else
    [UInt8.ofNat (0xE0 + unit / 0x1000), UInt8.ofNat (0x80 + unit / 0x40 % 0x40),
      UInt8.ofNat (0x80 + unit % 0x40)]

def encode (text : String) : List UInt8 :=
  text.toList.flatMap fun c => (utf16Units c).flatMap encodeUnit

/-! ## Reading -/

def isContinuation (byte : UInt8) : Bool :=
  byte &&& 0xC0 = 0x80

/-- The six bits that a continuation byte carries. -/
def payload (byte : UInt8) : Nat :=
  (byte &&& 0x3F).toNat

/-- The units that bytes stand for; those before the offset are given
backwards. -/
def unitsFrom (offset : Nat) (backwards : List Nat) :
    List UInt8 → Except Malformation (List Nat)
  | [] => .ok backwards.reverse
  | lead :: rest =>
      if lead &&& 0x80 = 0 ∧ lead ≠ 0 then
        unitsFrom (offset + 1) (lead.toNat :: backwards) rest
      else if lead &&& 0xE0 = 0xC0 then
        match rest with
        | [] => .error (.utf8Continuation (offset + 1))
        | low :: rest =>
            if isContinuation low then
              let unit := (lead &&& 0x1F).toNat * 0x40 + payload low
              unitsFrom (offset + 2) (unit :: backwards) rest
            else .error (.utf8Continuation (offset + 1))
      else if lead &&& 0xF0 = 0xE0 then
        match rest with
        | [] => .error (.utf8Continuation (offset + 1))
        | [middle] =>
            if isContinuation middle then .error (.utf8Continuation (offset + 2))
            else .error (.utf8Continuation (offset + 1))
        | middle :: low :: rest =>
            if isContinuation middle then
              if isContinuation low then
                let unit := (lead &&& 0x0F).toNat * 0x1000 +
                  payload middle * 0x40 + payload low
                unitsFrom (offset + 3) (unit :: backwards) rest
              else .error (.utf8Continuation (offset + 2))
            else .error (.utf8Continuation (offset + 1))
      else .error (.utf8Lead lead offset)

/-- Reads any string by way of its UTF-16 units. -/
def decodeUnits (bytes : List UInt8) : Except Malformation String :=
  match unitsFrom 0 [] bytes with
  | .error cause => .error cause
  | .ok units =>
      match ofUtf16? units with
      | some text => .ok (String.ofList text)
      | none => .error .unpairedSurrogate

/-- Reads a string that is plain UTF-8 without a zero and without characters
beyond the basic plane. -/
def decodePlain? (bytes : List UInt8) : Option String :=
  if bytes.all fun byte => byte ≠ 0 ∧ byte < 0xF0 then
    String.fromUTF8? ⟨bytes.toArray⟩
  else none

def decode (bytes : List UInt8) : Except Malformation String :=
  match decodePlain? bytes with
  | some text => .ok text
  | none => decodeUnits bytes

end Forwarding.Text.ModifiedUtf8
