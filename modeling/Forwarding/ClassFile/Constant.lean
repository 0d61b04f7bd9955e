import Forwarding.Decimal.Layout
import Forwarding.Text.Quoted

/-!
# Constants

The entries of a class file's constant pool.  An entry refers to others by
their index.  Floating-point constants are kept as the words they are stored
in, so that every value of the format has exactly one representation.
-/

namespace Forwarding.ClassFile

inductive Constant
  | unusable
  | utf8 (text : String)
  | integer (value : Int32)
  | float (bits : UInt32)
  | long (value : Int64)
  | double (bits : UInt64)
  | classRef (name : UInt16)
  | string (text : UInt16)
  | fieldRef (owner signature : UInt16)
  | methodRef (owner signature : UInt16)
  | interfaceMethodRef (owner signature : UInt16)
  | nameAndType (name descriptor : UInt16)
  | methodHandle (kind : UInt8) (reference : UInt16)
  | methodType (descriptor : UInt16)
  | dynamic (bootstrap signature : UInt16)
  | invokeDynamic (bootstrap signature : UInt16)
  | module (name : UInt16)
  | package (name : UInt16)
  deriving DecidableEq, Repr

namespace Constant

/-- Whether the constant takes up the slot after its own as well. -/
def isWide : Constant → Bool
  | .long _ => true
  | .double _ => true
  | _ => false

private def single (label value : String) : String :=
  label ++ "(" ++ value ++ ")"

private def entry (field : String) (value : Nat) : String :=
  field ++ ": " ++ toString value

private def group (label : String) (entries : List String) : String :=
  label ++ " \x7b " ++ String.intercalate ", " entries ++ " \x7d"

private def member (label : String) (owner signature : UInt16) : String :=
  group label
    [entry "class_index" owner.toNat,
      entry "name_and_type_index" signature.toNat]

private def computed (label : String) (bootstrap signature : UInt16) : String :=
  group label
    [entry "bootstrap_method_attr_index" bootstrap.toNat,
      entry "name_and_type_index" signature.toNat]

/-- The constant as messages show it. -/
def describe : Constant → String
  | .unusable => "Unusable"
  | .utf8 text => single "Utf8" (Text.quoted text)
  | .integer value => single "Integer" (toString value.toInt)
  | .float bits =>
      single "Float" (Decimal.plain.text Decimal.single bits.toNat)
  | .long value => single "Long" (toString value.toInt)
  | .double bits =>
      single "Double" (Decimal.plain.text Decimal.double bits.toNat)
  | .classRef name => group "Class" [entry "name_index" name.toNat]
  | .string text => group "String" [entry "string_index" text.toNat]
  | .fieldRef owner signature => member "FieldRef" owner signature
  | .methodRef owner signature => member "MethodRef" owner signature
  | .interfaceMethodRef owner signature =>
      member "InterfaceMethodRef" owner signature
  | .nameAndType name descriptor =>
      group "NameAndType"
        [entry "name_index" name.toNat,
          entry "descriptor_index" descriptor.toNat]
  | .methodHandle kind reference =>
      group "MethodHandle"
        [entry "reference_kind" kind.toNat,
          entry "reference_index" reference.toNat]
  | .methodType descriptor =>
      group "MethodType" [entry "descriptor_index" descriptor.toNat]
  | .dynamic bootstrap signature => computed "Dynamic" bootstrap signature
  | .invokeDynamic bootstrap signature =>
      computed "InvokeDynamic" bootstrap signature
  | .module name => group "Module" [entry "name_index" name.toNat]
  | .package name => group "Package" [entry "name_index" name.toNat]

end Constant

end Forwarding.ClassFile
