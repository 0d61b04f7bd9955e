import Forwarding.ClassFile.MethodTable
import Forwarding.Proofs.Bytes.Reading

/-!
# Writing class files

What a class file may hold, and the bytes that it then consists of.  The parts know
how many of them there may be and how long they may get, so that every count and
length fits the number that announces it.
-/

namespace Forwarding.ClassFile

open Reader (toBytes)

/-! ## Constants -/

def Constant.write : Constant → List UInt8
  | .unusable => []
  | .utf8 text =>
      let bytes := Text.ModifiedUtf8.encode text
      1 :: (toBytes 2 bytes.length ++ bytes)
  | .integer value => 3 :: toBytes 4 value.toUInt32.toNat
  | .float bits => 4 :: toBytes 4 bits.toNat
  | .long value => 5 :: toBytes 8 value.toUInt64.toNat
  | .double bits => 6 :: toBytes 8 bits.toNat
  | .classRef name => 7 :: toBytes 2 name.toNat
  | .string text => 8 :: toBytes 2 text.toNat
  | .fieldRef owner signature => 9 :: (toBytes 2 owner.toNat ++ toBytes 2 signature.toNat)
  | .methodRef owner signature => 10 :: (toBytes 2 owner.toNat ++ toBytes 2 signature.toNat)
  | .interfaceMethodRef owner signature =>
      11 :: (toBytes 2 owner.toNat ++ toBytes 2 signature.toNat)
  | .nameAndType name descriptor =>
      12 :: (toBytes 2 name.toNat ++ toBytes 2 descriptor.toNat)
  | .methodHandle kind reference => 15 :: kind :: toBytes 2 reference.toNat
  | .methodType descriptor => 16 :: toBytes 2 descriptor.toNat
  | .dynamic bootstrap signature =>
      17 :: (toBytes 2 bootstrap.toNat ++ toBytes 2 signature.toNat)
  | .invokeDynamic bootstrap signature =>
      18 :: (toBytes 2 bootstrap.toNat ++ toBytes 2 signature.toNat)
  | .module name => 19 :: toBytes 2 name.toNat
  | .package name => 20 :: toBytes 2 name.toNat

structure Entry where
  constant : Constant
  usable : constant ≠ .unusable
  text_lt : ∀ text, constant = .utf8 text →
    (Text.ModifiedUtf8.encode text).length < 2 ^ 16

def Entry.utf8 (text : String) (hlength : (Text.ModifiedUtf8.encode text).length < 2 ^ 16) :
    Entry where
  constant := .utf8 text
  usable := by simp
  text_lt := by
    intro other hother
    cases hother
    exact hlength

def Entry.slots (e : Entry) : List Constant :=
  if e.constant.isWide then [e.constant, .unusable] else [e.constant]

/-- The slots of a pool, which are numbered from zero. -/
def poolSlots (entries : List Entry) : List Constant :=
  .unusable :: entries.flatMap Entry.slots

/-! ## Fields and methods -/

structure Attribute where
  name : UInt16
  body : List UInt8
  body_lt : body.length < 2 ^ 32

def Attribute.write (a : Attribute) : List UInt8 :=
  toBytes 2 a.name.toNat ++ (toBytes 4 a.body.length ++ a.body)

structure Field where
  flags : UInt16
  name : UInt16
  descriptor : UInt16
  attributes : List Attribute
  attributes_lt : attributes.length < 2 ^ 16

def Field.write (f : Field) : List UInt8 :=
  (toBytes 2 f.flags.toNat ++ toBytes 2 f.name.toNat ++ toBytes 2 f.descriptor.toNat) ++
    (toBytes 2 f.attributes.length ++ f.attributes.flatMap Attribute.write)

/-- Bytecode with its limits, and what follows it in its attribute. -/
structure Body extends CodeAttribute where
  rest : List UInt8
  code_ne_nil : code ≠ []
  body_lt : 8 + code.length + rest.length < 2 ^ 32

def Body.write (b : Body) : List UInt8 :=
  toBytes 2 b.maxStack.toNat ++ (toBytes 2 b.maxLocals.toNat ++
    (toBytes 4 b.code.length ++ (b.code ++ b.rest)))

theorem Body.length_write (b : Body) : b.write.length = 8 + b.code.length + b.rest.length := by
  simp only [write, List.length_append, Reader.length_toBytes]
  omega

inductive MethodAttribute
  | code (name : UInt16) (body : Body)
  | other (content : Attribute)

namespace MethodAttribute

def toAttribute : MethodAttribute → Attribute
  | .code name body => ⟨name, body.write, by rw [body.length_write]; exact body.body_lt⟩
  | .other content => content

def code? : MethodAttribute → Option CodeAttribute
  | .code _ body => some body.toCodeAttribute
  | .other _ => none

/-- Whether the name of an attribute stands in the slots and tells what it is. -/
def Named (slots : List Constant) : MethodAttribute → Prop
  | .code name _ => slots[name.toNat]? = some (.utf8 codeAttributeName)
  | .other content =>
      ∃ text, slots[content.name.toNat]? = some (.utf8 text) ∧ text ≠ codeAttributeName

end MethodAttribute

structure MethodInfo where
  flags : UInt16
  name : UInt16
  descriptor : UInt16
  attributes : List MethodAttribute
  attributes_lt : attributes.length < 2 ^ 16
  one_code : attributes.countP (·.code?.isSome) ≤ 1

namespace MethodInfo

def write (m : MethodInfo) : List UInt8 :=
  toBytes 2 m.flags.toNat ++ (toBytes 2 m.name.toNat ++ (toBytes 2 m.descriptor.toNat ++
    (toBytes 2 m.attributes.length ++ m.attributes.flatMap (·.toAttribute.write))))

/-- Whether the names in a method stand in the slots. -/
structure Named (slots : List Constant) (m : MethodInfo) : Prop where
  name : ∃ text, slots[m.name.toNat]? = some (.utf8 text)
  descriptor : ∃ text, slots[m.descriptor.toNat]? = some (.utf8 text)
  attributes : ∀ a ∈ m.attributes, a.Named slots

/-- What there is to know about a method once its names are found. -/
structure Shows (slots : List Constant) (m : MethodInfo) (entry : MethodEntry) : Prop where
  flags : entry.flags = MethodFlags.ofRaw m.flags
  name : slots[m.name.toNat]? = some (.utf8 entry.name)
  descriptor : slots[m.descriptor.toNat]? = some (.utf8 entry.descriptor)
  code : entry.code = m.attributes.findSome? MethodAttribute.code?

/-- A method shows in one way only. -/
theorem Shows.unique {slots : List Constant} {m : MethodInfo}
    {entry other : MethodEntry} (hentry : m.Shows slots entry) (hother : m.Shows slots other) :
    entry = other := by
  have hname := hentry.name.symm.trans hother.name
  have hdescriptor := hentry.descriptor.symm.trans hother.descriptor
  rw [Option.some.injEq, Constant.utf8.injEq] at hname hdescriptor
  cases entry
  cases other
  rw [MethodEntry.mk.injEq]
  exact ⟨hentry.flags.trans hother.flags.symm, hname, hdescriptor,
    hentry.code.trans hother.code.symm⟩

end MethodInfo

/-! ## Class files -/

structure Content where
  minorVersion : UInt16
  majorVersion : UInt16
  entries : List Entry
  accessFlags : UInt16
  thisClass : UInt16
  superClass : UInt16
  interfaces : List UInt16
  fields : List Field
  methods : List MethodInfo
  attributes : List Attribute
  slots_lt : (poolSlots entries).length < 2 ^ 16
  interfaces_lt : interfaces.length < 2 ^ 16
  fields_lt : fields.length < 2 ^ 16
  methods_lt : methods.length < 2 ^ 16
  attributes_lt : attributes.length < 2 ^ 16
  named : ∀ m ∈ methods, m.Named (poolSlots entries)

namespace Content

def writePool (content : Content) : List UInt8 :=
  toBytes 2 (poolSlots content.entries).length ++ content.entries.flatMap (·.constant.write)

def writeHeader (content : Content) : List UInt8 :=
  toBytes 4 magic.toNat ++ (toBytes 2 content.minorVersion.toNat ++
    (toBytes 2 content.majorVersion.toNat ++ (content.writePool ++
    (toBytes 2 content.accessFlags.toNat ++ (toBytes 2 content.thisClass.toNat ++
    (toBytes 2 content.superClass.toNat ++ (toBytes 2 content.interfaces.length ++
    (content.interfaces.flatMap (fun index => toBytes 2 index.toNat) ++
    (toBytes 2 content.fields.length ++ content.fields.flatMap Field.write)))))))))

def writeMethods (content : Content) : List UInt8 :=
  toBytes 2 content.methods.length ++ content.methods.flatMap MethodInfo.write

def writeAttributes (content : Content) : List UInt8 :=
  toBytes 2 content.attributes.length ++ content.attributes.flatMap Attribute.write

def write (content : Content) : List UInt8 :=
  content.writeHeader ++ (content.writeMethods ++ content.writeAttributes)

def header (content : Content) : Header where
  minorVersion := content.minorVersion
  majorVersion := content.majorVersion
  pool := ⟨(poolSlots content.entries).toArray⟩
  accessFlags := content.accessFlags
  thisClass := content.thisClass
  superClass := content.superClass
  interfaces := content.interfaces

end Content

end Forwarding.ClassFile
