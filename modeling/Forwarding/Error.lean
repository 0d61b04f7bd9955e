import Forwarding.ClassFile.Constant
import Forwarding.Descriptor.Scanner

/-!
# Errors

Everything that can go wrong, by cause, and the wording of each cause.
-/

namespace Forwarding

inductive Malformation
  | reservedOpcode (opcode : UInt8) (offset : Nat)
  | wideUnsupported (mnemonic : String) (offset : Nat)
  | switchBounds (offset : Nat) (high low : Int)
  | switchPairs (offset : Nat) (count : Int)
  | offsetRange (value : Int)
  | emptyPool
  | poolTag (tag : UInt8) (index : Nat)
  | poolOverflow (index : Nat)
  | poolIndex (index : UInt16)
  | notUtf8 (index : UInt16) (found : ClassFile.Constant)
  | notClass (index : UInt16) (found : ClassFile.Constant)
  | notNameAndType (index : UInt16) (found : ClassFile.Constant)
  | notMember (index : UInt16) (found : ClassFile.Constant)
  | utf8Continuation (offset : Nat)
  | utf8Lead (lead : UInt8) (offset : Nat)
  | unpairedSurrogate
  | emptyCode
  | codeLength (length size : Nat)
  | repeatedCode (name descriptor : String)
  | callsField (mnemonic : String) (offset : Nat)
      (stubName stubDescriptor field : String)
  deriving DecidableEq, Repr

inductive LoadProblem
  | unknown (name : String)
  | invalidClassName (name : String)
  | noClassBytes (name : String)
  deriving DecidableEq, Repr

inductive Error
  | outOfBounds
  | notSupported
  | malformed (cause : Malformation)
  | malformedDescriptor (failure : Descriptor.Failure)
  | typeLoad (problem : LoadProblem)
  | hierarchyCycle (typeName : String) (limit : Nat)
  | stubNotFound (name : String) (parameters : Nat)
  | noDelegation (name : String)
  | targetNotFound (owner name : String)
  | stubChainLimit (limit : Nat)
  | stubResolution (method : String) (source : Error)
  deriving DecidableEq, Repr

/-! ## Wording -/

private def padded (width : Nat) (digits : List Char) : String :=
  String.ofList (List.replicate (width - digits.length) '0' ++ digits)

def hexByte (byte : UInt8) : String :=
  padded 2 (Nat.toDigits 16 byte.toNat)

private def atOffset (offset : Nat) : String :=
  " at offset " ++ toString offset

private def poolEntry (index : UInt16) (expected : String)
    (found : ClassFile.Constant) : String :=
  "Constant pool index " ++ toString index.toNat ++ " is not " ++ expected ++
    " - " ++ found.describe

def Malformation.message : Malformation → String
  | .reservedOpcode opcode offset =>
      "Reserved opcode: " ++ (hexByte opcode).toUpper ++ atOffset offset
  | .wideUnsupported mnemonic offset =>
      "wide prefix cannot modify " ++ mnemonic ++ atOffset offset
  | .switchBounds offset high low =>
      "tableswitch" ++ atOffset offset ++ " has high " ++ toString high ++
        " below low " ++ toString low
  | .switchPairs offset count =>
      "lookupswitch" ++ atOffset offset ++ " has negative pair count " ++
        toString count
  | .offsetRange value =>
      "Branch target " ++ toString value ++ " is outside the method"
  | .emptyPool => "constant_pool_count must be at least 1"
  | .poolTag tag index =>
      "Invalid constant pool tag " ++ toString tag.toNat ++ " at index " ++
        toString index
  | .poolOverflow index =>
      "8-byte constant at index " ++ toString index ++ " overflows the pool"
  | .poolIndex index => "Invalid constant pool index " ++ toString index.toNat
  | .notUtf8 index found => poolEntry index "Utf8" found
  | .notClass index found => poolEntry index "a Class" found
  | .notNameAndType index found => poolEntry index "a NameAndType" found
  | .notMember index found => poolEntry index "a member reference" found
  | .utf8Continuation offset =>
      "Invalid modified UTF-8 continuation" ++ atOffset offset
  | .utf8Lead lead offset =>
      "Invalid modified UTF-8 lead byte 0x" ++ hexByte lead ++ atOffset offset
  | .unpairedSurrogate => "Modified UTF-8 string contains unpaired surrogates"
  | .emptyCode => "Code attribute with empty bytecode"
  | .codeLength length size =>
      "Code length " ++ toString length ++ " exceeds attribute size " ++
        toString size
  | .repeatedCode name descriptor =>
      "Method " ++ name ++ descriptor ++ " has more than one Code attribute"
  | .callsField mnemonic offset stubName stubDescriptor field =>
      mnemonic ++ atOffset offset ++ " in " ++ stubName ++ stubDescriptor ++
        " references field " ++ field

def LoadProblem.message : LoadProblem → String
  | .unknown name => name
  | .invalidClassName name => "invalid class name '" ++ name ++ "'"
  | .noClassBytes name => "no class bytes for " ++ name

def Error.message : Error → String
  | .outOfBounds => "Out of Bound read would have occurred!"
  | .notSupported => "This file type is not supported"
  | .malformed cause => "Malformed - " ++ cause.message
  | .malformedDescriptor failure =>
      "Malformed descriptor at position " ++ toString failure.position ++ ": " ++
        failure.fault.message
  | .typeLoad problem => "Failed to load type - " ++ problem.message
  | .hierarchyCycle typeName limit =>
      "Hierarchy of '" ++ typeName ++ "' exceeds " ++ toString limit ++
        " ancestors, the chain is likely cyclic"
  | .stubNotFound name parameters =>
      "No forwarding stub '" ++ name ++ "' with " ++ toString parameters ++
        " parameters found"
  | .noDelegation name =>
      "Forwarding stub '" ++ name ++ "' contains no call instruction"
  | .targetNotFound owner name =>
      "Delegation target '" ++ owner ++ "." ++ name ++ "' could not be found"
  | .stubChainLimit limit =>
      "Forwarding stub chain exceeds " ++ toString limit ++ " hops"
  | .stubResolution method source =>
      "Failed to resolve forwarding stub " ++ method ++ ": " ++ source.message

/-- Lifts the outcome of reading a descriptor. -/
def Error.ofDescriptor {α : Type} (outcome : Except Descriptor.Failure α) :
    Except Error α :=
  outcome.mapError .malformedDescriptor

def Error.ofMalformation {α : Type} (outcome : Except Malformation α) :
    Except Error α :=
  outcome.mapError .malformed

end Forwarding
