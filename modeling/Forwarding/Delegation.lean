import Forwarding.Bytecode.Decode
import Forwarding.ClassFile.MethodTable
import Forwarding.Descriptor.ParameterCount
import Forwarding.Descriptor.FieldType

/-!
# Delegations

A forwarding stub calls one method and does nothing else of interest.  The
stub is the first method with the stub flags, the right name and the right
number of parameters, and the delegation is the first method call in its code.
Nothing behind that call is looked at.
-/

namespace Forwarding

open ClassFile Bytecode

/-- The call that a forwarding stub makes. -/
structure Delegation where
  owner : String
  name : String
  descriptor : String
  /-- Whether the call is to a method of an interface. -/
  interface : Bool
  offset : Nat
  deriving DecidableEq, Repr

namespace Delegation

/-- The owner's name as source code writes it. -/
def ownerType (d : Delegation) : String :=
  dotted d.owner

def display (d : Delegation) : String :=
  d.owner ++ "." ++ d.name ++ d.descriptor

/-- Whether a method is the stub that is asked for.  Only the descriptors of
stubs with the right name need to be well-formed. -/
def isCandidate (name : String) (parameters : Nat) (m : MethodEntry) :
    Except Error Bool :=
  if m.flags.isStub && m.name = name then
    (Error.ofDescriptor (Descriptor.parameterCount m.descriptor)).map
      (· = parameters)
  else .ok false

def findStub (name : String) (parameters : Nat) (failure : Option Error) :
    List MethodEntry → Except Error MethodEntry
  | [] =>
      match failure with
      | some error => .error error
      | none => .error (.stubNotFound name parameters)
  | m :: rest =>
      match isCandidate name parameters m with
      | .error error => .error error
      | .ok true => .ok m
      | .ok false => findStub name parameters failure rest

/-- The delegation that a call instruction of a stub makes. -/
def ofCall (pool : ConstantPool) (stub : MethodEntry) (call : Instruction)
    (index : UInt16) : Except Error Delegation := do
  let callee ← Error.ofMalformation (pool.memberRef index)
  if callee.kind = .field then
    throw (.malformed (.callsField call.info.mnemonic call.offset stub.name
      stub.descriptor callee.name))
  else
    pure
      { owner := callee.owner
        name := callee.name
        descriptor := callee.descriptor
        interface := callee.kind = .interfaceMethod
        offset := call.offset }

def calledIndex? (i : Instruction) : Option UInt16 :=
  if i.isMethodCall then i.operand.constantIndex? else none

/-- Scans a stub's code for its first call. -/
def scanWith (pool : ConstantPool) (stub : MethodEntry) :
    Nat → Cursor → Except Error Delegation
  | 0, _ => .error (.noDelegation stub.name)
  | fuel + 1, c =>
      if c.hasMore then
        match readInstruction.run c with
        | (.error error, _) => .error error
        | (.ok i, c') =>
            match calledIndex? i with
            | some index => ofCall pool stub i index
            | none => scanWith pool stub fuel c'
      else .error (.noDelegation stub.name)

def scan (pool : ConstantPool) (stub : MethodEntry) : Except Error Delegation :=
  match stub.code with
  | none => .error (.noDelegation stub.name)
  | some body =>
      let code := body.code.toArray
      scanWith pool stub code.size (.start code)

/-- Finds the delegation of a stub in the bytes of its class. -/
def find (classBytes : Array UInt8) (name : String) (parameters : Nat) :
    Except Error Delegation := do
  let file ← ClassFile.parse classBytes
  let table ← file.methods
  let stub ← findStub name parameters table.failure table.methods
  scan file.pool stub

end Delegation

end Forwarding
