import Forwarding.Bytecode.Opcode

/-!
# Instructions

A decoded instruction knows where it stands in its method, how many bytes it
takes up and where it may branch to.
-/

namespace Forwarding.Bytecode

inductive Operand
  | empty
  | int8 (value : Int8)
  | uint8 (value : UInt8)
  | int16 (value : Int16)
  | constant (index : UInt16)
  | variable (index : UInt16)
  | increment (index : UInt16) (delta : Int16)
  | branch (offset : Int32)
  | invokeInterface (index : UInt16) (count : UInt8)
  | multiArray (index : UInt16) (dimensions : UInt8)
  | tableSwitch (default low high : Int32) (offsets : List Int32)
  | lookupSwitch (default : Int32) (pairs : List (Int32 × Int32))
  deriving DecidableEq, Repr

namespace Operand

/-- The distances of all branches, in the order in which they are written. -/
def distances : Operand → List Int32
  | .branch offset => [offset]
  | .tableSwitch default _ _ offsets => default :: offsets
  | .lookupSwitch default pairs => default :: pairs.map Prod.snd
  | _ => []

/-- The constant that the operand refers to. -/
def constantIndex? : Operand → Option UInt16
  | .constant index => some index
  | .invokeInterface index _ => some index
  | .multiArray index _ => some index
  | _ => none

end Operand

structure Instruction where
  offset : Nat
  size : Nat
  opcode : UInt8
  info : OpcodeInfo
  /-- Whether a `wide` stands in front of the opcode. -/
  wide : Bool
  operand : Operand
  targets : List Nat
  deriving DecidableEq, Repr

namespace Instruction

def nextOffset (i : Instruction) : Nat :=
  i.offset + i.size

def isMethodCall (i : Instruction) : Bool :=
  i.opcode ∈ callOpcodes

end Instruction

end Forwarding.Bytecode
