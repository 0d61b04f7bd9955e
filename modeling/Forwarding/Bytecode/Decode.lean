import Forwarding.Bytecode.Instruction
import Forwarding.Bytes.Reader

/-!
# Decoding bytecode

One reader decodes an instruction; a method's code is one instruction after
the other up to its end.  Offsets and branch targets must fit 32 bits.
-/

namespace Forwarding.Bytecode

/-- The offsets that an instruction and its targets may have. -/
def codeOffset (value : Int) : Except Error Nat :=
  if 0 ≤ value ∧ value < UInt32.size then .ok value.toNat
  else .error (.malformed (.offsetRange value))

/-- The words that bytes hold, four bytes each. -/
def words : List UInt8 → List Int32
  | a :: b :: c :: d :: rest =>
      (UInt32.ofNat (Reader.bigEndian [a, b, c, d])).toInt32 :: words rest
  | _ => []

def pairs : List Int32 → List (Int32 × Int32)
  | key :: offset :: rest => (key, offset) :: pairs rest
  | _ => []

def variableIndex (wide : Bool) : Reader UInt16 :=
  if wide then Reader.u16 else UInt8.toUInt16 <$> Reader.u8

def incrementDelta (wide : Bool) : Reader Int16 :=
  if wide then Reader.i16 else Int8.toInt16 <$> Reader.i8

/-- The jump table is taken as a whole, after its bounds. -/
def readTableSwitch (start : Nat) : Reader Operand := do
  Reader.align 4
  let default ← Reader.i32
  let low ← Reader.i32
  let high ← Reader.i32
  if high < low then
    .fail (.malformed (.switchBounds start high.toInt low.toInt))
  else
    let count := (high.toInt - low.toInt + 1).toNat
    let table ← Reader.bytes (count * 4)
    pure (.tableSwitch default low high (words table))

def readLookupSwitch (start : Nat) : Reader Operand := do
  Reader.align 4
  let default ← Reader.i32
  let count ← Reader.i32
  if count < 0 then
    .fail (.malformed (.switchPairs start count.toInt))
  else
    let table ← Reader.bytes (count.toInt.toNat * 8)
    pure (.lookupSwitch default (pairs (words table)))

/-- The operand of an instruction that starts at the given offset. -/
def readOperand (start : Nat) (wide : Bool) : Layout → Reader Operand
  | .empty => pure .empty
  | .int8 => .int8 <$> Reader.i8
  | .uint8 => .uint8 <$> Reader.u8
  | .int16 => .int16 <$> Reader.i16
  | .constant8 => (.constant ·.toUInt16) <$> Reader.u8
  | .constant16 => .constant <$> Reader.u16
  | .variable => .variable <$> variableIndex wide
  | .increment => do
      let index ← variableIndex wide
      let delta ← incrementDelta wide
      pure (.increment index delta)
  | .branch16 => (.branch ·.toInt32) <$> Reader.i16
  | .branch32 => .branch <$> Reader.i32
  | .invokeInterface => do
      let index ← Reader.u16
      let count ← Reader.u8
      Reader.skip 1
      pure (.invokeInterface index count)
  | .invokeDynamic => do
      let index ← Reader.u16
      Reader.skip 2
      pure (.constant index)
  | .multiArray => do
      let index ← Reader.u16
      let dimensions ← Reader.u8
      pure (.multiArray index dimensions)
  | .tableSwitch => readTableSwitch start
  | .lookupSwitch => readLookupSwitch start
  | .wide => pure .empty

def branchTargets (offset : Nat) (operand : Operand) : Except Error (List Nat) :=
  operand.distances.mapM fun distance => codeOffset (offset + distance.toInt)

/-- An instruction behind its opcode. -/
def readBody (start : Nat) (wide : Bool) (opcode : UInt8) (info : OpcodeInfo) :
    Reader Instruction := do
  let operand ← readOperand start wide info.layout
  let stop ← Reader.position
  let offset ← Reader.ofExcept (codeOffset start)
  let size ← Reader.ofExcept (codeOffset (stop - start : Nat))
  let targets ← Reader.ofExcept (branchTargets offset operand)
  pure { offset, size, opcode, info, wide, operand, targets }

def readAssigned (start : Nat) (wide : Bool) (opcode : UInt8) :
    Reader Instruction :=
  match opcodeInfo? opcode with
  | none => .fail (.malformed (.reservedOpcode opcode start))
  | some info =>
      if wide && !info.layout.widens then
        .fail (.malformed (.wideUnsupported info.mnemonic start))
      else readBody start wide opcode info

def readInstruction : Reader Instruction := do
  let start ← Reader.position
  let first ← Reader.u8
  if first = wideOpcode then
    let opcode ← Reader.u8
    readAssigned start true opcode
  else readAssigned start false first

/-! ## Whole methods -/

/-- The instructions up to the end of the bytes or up to the first that cannot
be decoded, and where that leaves the cursor. -/
structure Decoding where
  instructions : List Instruction
  failure : Option Error
  stop : Cursor

/-- Decodes at most as many instructions as the fuel allows; the ones so far
are given backwards. -/
def decodeWith : Nat → Cursor → List Instruction → Decoding
  | 0, c, backwards => ⟨backwards.reverse, none, c⟩
  | fuel + 1, c, backwards =>
      if c.hasMore then
        match readInstruction.run c with
        | (.ok i, c') => decodeWith fuel c' (i :: backwards)
        | (.error error, c') => ⟨backwards.reverse, some error, c'⟩
      else ⟨backwards.reverse, none, c⟩

/-- Every instruction takes up a byte, so the bytes that remain are fuel
enough. -/
def decodeFrom (c : Cursor) : Decoding :=
  decodeWith c.remaining c []

def decode (code : Array UInt8) : Except Error (List Instruction) :=
  let decoding := decodeFrom (.start code)
  match decoding.failure with
  | none => .ok decoding.instructions
  | some error => .error error

end Forwarding.Bytecode
