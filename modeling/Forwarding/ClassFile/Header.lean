import Forwarding.ClassFile.ConstantPool

/-!
# Class files

The part of a class file before its methods: versions, constants, names and
flags.  Fields are skipped.  The method table is left unread, with a cursor in
front of it.
-/

namespace Forwarding

structure ClassFile.Header where
  minorVersion : UInt16
  majorVersion : UInt16
  pool : ClassFile.ConstantPool
  accessFlags : UInt16
  thisClass : UInt16
  superClass : UInt16
  interfaces : List UInt16
  deriving DecidableEq, Repr

structure ClassFile extends ClassFile.Header where
  /-- The cursor in front of the number of methods. -/
  methodTable : Cursor

namespace ClassFile

def magic : UInt32 := 0xCAFEBABE

def interfaceFlag : UInt16 := 0x0200

/-! ## Reading -/

def skipAttribute : Reader Unit := do
  Reader.skip 2
  let length ← Reader.u32
  Reader.skip length.toNat

def skipAttributes : Reader Unit := do
  let count ← Reader.u16
  Reader.repeated skipAttribute count.toNat

def skipField : Reader Unit := do
  Reader.skip 6
  skipAttributes

def readHeader : Reader Header := do
  let first ← Reader.u32
  if first ≠ magic then .fail .notSupported
  else
    let minorVersion ← Reader.u16
    let majorVersion ← Reader.u16
    let pool ← ConstantPool.read
    let accessFlags ← Reader.u16
    let thisClass ← Reader.u16
    let superClass ← Reader.u16
    let interfaceCount ← Reader.u16
    let interfaces ← Reader.many Reader.u16 interfaceCount.toNat
    let fieldCount ← Reader.u16
    Reader.repeated skipField fieldCount.toNat
    pure
      { minorVersion, majorVersion, pool, accessFlags, thisClass, superClass,
        interfaces }

def parse (data : Array UInt8) : Except Error ClassFile :=
  match readHeader.run (.start data) with
  | (.ok header, methodTable) => .ok { header with methodTable }
  | (.error error, _) => .error error

/-! ## Names -/

def isInterface (file : ClassFile) : Bool :=
  file.accessFlags &&& interfaceFlag ≠ 0

def className (file : ClassFile) : Except Error String :=
  Error.ofMalformation (file.pool.className file.thisClass)

/-- The superclass, which only the root of the hierarchy lacks. -/
def superName (file : ClassFile) : Except Error (Option String) :=
  if file.superClass = 0 then .ok none
  else (Error.ofMalformation (file.pool.className file.superClass)).map some

end ClassFile

end Forwarding
