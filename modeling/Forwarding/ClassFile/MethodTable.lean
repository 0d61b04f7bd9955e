import Forwarding.ClassFile.Header
import Forwarding.ClassFile.MethodFlags

/-!
# The method table

The methods of a class file in their order.  Of a method's attributes only its
code matters.  Reading stops at the first method that cannot be read, because
nothing behind it can be found.
-/

namespace Forwarding.ClassFile

structure CodeAttribute where
  maxStack : UInt16
  maxLocals : UInt16
  code : List UInt8
  deriving DecidableEq, Repr

structure MethodEntry where
  flags : MethodFlags
  name : String
  descriptor : String
  /-- Native and abstract methods have none. -/
  code : Option CodeAttribute
  deriving DecidableEq, Repr

def codeAttributeName : String := "Code"

/-- The body of a code attribute, which takes up `size` bytes.  What follows
the bytecode is ignored. -/
def readCode (size : Nat) : Reader CodeAttribute := do
  let maxStack ← Reader.u16
  let maxLocals ← Reader.u16
  let length ← Reader.u32
  if length = 0 then .fail (.malformed .emptyCode)
  else if size < 8 + length.toNat then
    .fail (.malformed (.codeLength length.toNat size))
  else
    let code ← Reader.bytes length.toNat
    pure { maxStack, maxLocals, code }

def parseCode (body : List UInt8) : Except Error CodeAttribute :=
  (readCode body.length).runOn body.toArray

def lookupUtf8 (pool : ConstantPool) (index : UInt16) : Reader String :=
  Reader.ofExcept (Error.ofMalformation (pool.utf8 index))

/-- The code that an attribute adds to what is already there. -/
def addAttribute (methodName descriptor : String) (code : Option CodeAttribute)
    (attributeName : String) (body : List UInt8) :
    Except Error (Option CodeAttribute) :=
  if attributeName = codeAttributeName then
    if code.isSome then
      .error (.malformed (.repeatedCode methodName descriptor))
    else (parseCode body).map some
  else .ok code

def readAttributes (pool : ConstantPool) (methodName descriptor : String) :
    Nat → Option CodeAttribute → Reader (Option CodeAttribute)
  | 0, code => pure code
  | count + 1, code => do
      let attributeName ← Reader.u16 >>= lookupUtf8 pool
      let length ← Reader.u32
      let body ← Reader.bytes length.toNat
      let code ← Reader.ofExcept
        (addAttribute methodName descriptor code attributeName body)
      readAttributes pool methodName descriptor count code

def readMethod (pool : ConstantPool) : Reader MethodEntry := do
  let flags ← MethodFlags.ofRaw <$> Reader.u16
  let name ← Reader.u16 >>= lookupUtf8 pool
  let descriptor ← Reader.u16 >>= lookupUtf8 pool
  let attributeCount ← Reader.u16
  let code ← readAttributes pool name descriptor attributeCount.toNat none
  pure { flags, name, descriptor, code }

/-- The methods that can be read, and what kept the next one from it. -/
structure MethodTable where
  count : Nat
  methods : List MethodEntry
  failure : Option Error

def readMethods (pool : ConstantPool) :
    Nat → Cursor → List MethodEntry × Option Error
  | 0, _ => ([], none)
  | count + 1, c =>
      match (readMethod pool).run c with
      | (.ok method, c') =>
          let (methods, failure) := readMethods pool count c'
          (method :: methods, failure)
      | (.error error, _) => ([], some error)

def methods (file : ClassFile) : Except Error MethodTable :=
  match Reader.u16.run file.methodTable with
  | (.ok count, c) =>
      let (methods, failure) := readMethods file.pool count.toNat c
      .ok { count := count.toNat, methods, failure }
  | (.error error, _) => .error error

end Forwarding.ClassFile
