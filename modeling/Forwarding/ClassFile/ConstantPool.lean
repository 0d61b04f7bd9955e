import Forwarding.Bytes.Reader
import Forwarding.Text.ModifiedUtf8

/-!
# The constant pool

A class file numbers its constants from one.  Slot zero and the second slot of
every eight-byte constant are unusable.  References between constants are
followed only when they are asked for, and may lead anywhere.
-/

namespace Forwarding.ClassFile

structure ConstantPool where
  slots : Array Constant
  deriving DecidableEq, Repr

namespace ConstantPool

def empty : ConstantPool := ⟨#[]⟩

def size (pool : ConstantPool) : Nat :=
  pool.slots.size

def isEmpty (pool : ConstantPool) : Bool :=
  pool.size ≤ 1

/-! ## Reading -/

def readText : Reader Constant := do
  let length ← Reader.u16
  let bytes ← Reader.bytes length.toNat
  let text ← Reader.ofExcept
    (Error.ofMalformation (Text.ModifiedUtf8.decode bytes))
  pure (.utf8 text)

private def readPair (make : UInt16 → UInt16 → Constant) : Reader Constant := do
  let first ← Reader.u16
  let second ← Reader.u16
  pure (make first second)

/-- A constant behind its tag. -/
def readTagged (index : Nat) (tag : UInt8) : Reader Constant :=
  match tag.toNat with
  | 1 => readText
  | 3 => .integer <$> Reader.i32
  | 4 => .float <$> Reader.u32
  | 5 => .long <$> Reader.i64
  | 6 => .double <$> Reader.u64
  | 7 => .classRef <$> Reader.u16
  | 8 => .string <$> Reader.u16
  | 9 => readPair .fieldRef
  | 10 => readPair .methodRef
  | 11 => readPair .interfaceMethodRef
  | 12 => readPair .nameAndType
  | 15 => do
      let kind ← Reader.u8
      let reference ← Reader.u16
      pure (.methodHandle kind reference)
  | 16 => .methodType <$> Reader.u16
  | 17 => readPair .dynamic
  | 18 => readPair .invokeDynamic
  | 19 => .module <$> Reader.u16
  | 20 => .package <$> Reader.u16
  | _ => .fail (.malformed (.poolTag tag index))

def readConstant (index : Nat) : Reader Constant := do
  let tag ← Reader.u8
  readTagged index tag

/-- Fills the slots that remain from the given index on; the filled ones are
given backwards. -/
def readSlots : Nat → Nat → List Constant → Reader (List Constant)
  | 0, _, backwards => pure backwards.reverse
  | 1, index, backwards => do
      let constant ← readConstant index
      if constant.isWide then .fail (.malformed (.poolOverflow index))
      else pure (constant :: backwards).reverse
  | remaining + 2, index, backwards => do
      let constant ← readConstant index
      if constant.isWide then
        readSlots remaining (index + 2) (.unusable :: constant :: backwards)
      else readSlots (remaining + 1) (index + 1) (constant :: backwards)

def read : Reader ConstantPool := do
  let count ← Reader.u16
  if count = 0 then .fail (.malformed .emptyPool)
  else
    let slots ← readSlots (count.toNat - 1) 1 [.unusable]
    pure ⟨slots.toArray⟩

/-! ## Looking up -/

inductive MemberKind
  | field
  | method
  | interfaceMethod
  deriving DecidableEq, Repr

/-- A field or method of a class, all by name. -/
structure MemberRef where
  kind : MemberKind
  owner : String
  name : String
  descriptor : String
  deriving DecidableEq, Repr

def get (pool : ConstantPool) (index : UInt16) : Except Malformation Constant :=
  match pool.slots[index.toNat]? with
  | none => .error (.poolIndex index)
  | some .unusable => .error (.poolIndex index)
  | some constant => .ok constant

def utf8 (pool : ConstantPool) (index : UInt16) : Except Malformation String := do
  match ← pool.get index with
  | .utf8 text => pure text
  | found => throw (.notUtf8 index found)

def className (pool : ConstantPool) (index : UInt16) :
    Except Malformation String := do
  match ← pool.get index with
  | .classRef name => pool.utf8 name
  | found => throw (.notClass index found)

def nameAndType (pool : ConstantPool) (index : UInt16) :
    Except Malformation (String × String) := do
  match ← pool.get index with
  | .nameAndType name descriptor =>
      let name ← pool.utf8 name
      let descriptor ← pool.utf8 descriptor
      pure (name, descriptor)
  | found => throw (.notNameAndType index found)

/-- The kind of member that a constant refers to, with the indices of its
class and of its name and type. -/
def memberIndices? : Constant → Option (MemberKind × UInt16 × UInt16)
  | .fieldRef owner signature => some (.field, owner, signature)
  | .methodRef owner signature => some (.method, owner, signature)
  | .interfaceMethodRef owner signature =>
      some (.interfaceMethod, owner, signature)
  | _ => none

/-- Follows a reference to a member.  Its name and type come before its
class. -/
def memberRef (pool : ConstantPool) (index : UInt16) :
    Except Malformation MemberRef := do
  let found ← pool.get index
  match memberIndices? found with
  | some (kind, owner, signature) =>
      let (name, descriptor) ← pool.nameAndType signature
      let owner ← pool.className owner
      pure { kind, owner, name, descriptor }
  | none => throw (.notMember index found)

end ConstantPool

end Forwarding.ClassFile
