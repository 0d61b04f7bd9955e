/-!
# Opcodes

The instruction set of the Java virtual machine: what each opcode is called,
how its operands are laid out, and what kind of instruction it is.
-/

namespace Forwarding.Bytecode

/-- How the operands of an instruction are laid out. -/
inductive Layout
  | empty
  | int8
  | uint8
  | int16
  | constant8
  | constant16
  | variable
  | increment
  | branch16
  | branch32
  | invokeInterface
  | invokeDynamic
  | multiArray
  | tableSwitch
  | lookupSwitch
  | wide
  deriving DecidableEq, Repr

/-- Whether a `wide` in front doubles the width of the operands. -/
def Layout.widens : Layout → Bool
  | .variable => true
  | .increment => true
  | _ => false

inductive Category
  | constant
  | loadStore
  | arithmetic
  | conversion
  | comparison
  | stack
  | controlFlow
  | object
  | call
  | misc
  deriving DecidableEq, Repr

inductive Flow
  | sequential
  | conditionalBranch
  | unconditionalBranch
  | switch
  | call
  | methodReturn
  | exception
  deriving DecidableEq, Repr

structure OpcodeInfo where
  mnemonic : String
  layout : Layout
  category : Category
  flow : Flow
  deriving DecidableEq, Repr

private def assigned (layout : Layout) (category : Category) (flow : Flow)
    (mnemonics : List String) : List (Option OpcodeInfo) :=
  mnemonics.map fun mnemonic => some ⟨mnemonic, layout, category, flow⟩

private def unassigned (count : Nat) : List (Option OpcodeInfo) :=
  List.replicate count none

/-- The instruction set, in the order of the opcodes. -/
def opcodeTable : Array (Option OpcodeInfo) := (List.flatten [
    assigned .empty .misc .sequential ["nop"],
    assigned .empty .constant .sequential ["aconst_null", "iconst_m1", "iconst_0", "iconst_1",
    "iconst_2", "iconst_3", "iconst_4", "iconst_5", "lconst_0", "lconst_1", "fconst_0",
    "fconst_1", "fconst_2", "dconst_0", "dconst_1"],
    assigned .int8 .constant .sequential ["bipush"],
    assigned .int16 .constant .sequential ["sipush"],
    assigned .constant8 .constant .sequential ["ldc"],
    assigned .constant16 .constant .sequential ["ldc_w", "ldc2_w"],
    assigned .variable .loadStore .sequential ["iload", "lload", "fload", "dload", "aload"],
    assigned .empty .loadStore .sequential ["iload_0", "iload_1", "iload_2", "iload_3", "lload_0",
    "lload_1", "lload_2", "lload_3", "fload_0", "fload_1", "fload_2", "fload_3", "dload_0",
    "dload_1", "dload_2", "dload_3", "aload_0", "aload_1", "aload_2", "aload_3", "iaload",
    "laload", "faload", "daload", "aaload", "baload", "caload", "saload"],
    assigned .variable .loadStore .sequential ["istore", "lstore", "fstore", "dstore", "astore"],
    assigned .empty .loadStore .sequential ["istore_0", "istore_1", "istore_2", "istore_3",
    "lstore_0", "lstore_1", "lstore_2", "lstore_3", "fstore_0", "fstore_1", "fstore_2",
    "fstore_3", "dstore_0", "dstore_1", "dstore_2", "dstore_3", "astore_0", "astore_1",
    "astore_2", "astore_3", "iastore", "lastore", "fastore", "dastore", "aastore", "bastore",
    "castore", "sastore"],
    assigned .empty .stack .sequential ["pop", "pop2", "dup", "dup_x1", "dup_x2", "dup2", "dup2_x1",
    "dup2_x2", "swap"],
    assigned .empty .arithmetic .sequential ["iadd", "ladd", "fadd", "dadd", "isub", "lsub", "fsub",
    "dsub", "imul", "lmul", "fmul", "dmul", "idiv", "ldiv", "fdiv", "ddiv", "irem", "lrem",
    "frem", "drem", "ineg", "lneg", "fneg", "dneg", "ishl", "lshl", "ishr", "lshr", "iushr",
    "lushr", "iand", "land", "ior", "lor", "ixor", "lxor"],
    assigned .increment .arithmetic .sequential ["iinc"],
    assigned .empty .conversion .sequential ["i2l", "i2f", "i2d", "l2i", "l2f", "l2d", "f2i", "f2l",
    "f2d", "d2i", "d2l", "d2f", "i2b", "i2c", "i2s"],
    assigned .empty .comparison .sequential ["lcmp", "fcmpl", "fcmpg", "dcmpl", "dcmpg"],
    assigned .branch16 .controlFlow .conditionalBranch ["ifeq", "ifne", "iflt", "ifge", "ifgt",
    "ifle", "if_icmpeq", "if_icmpne", "if_icmplt", "if_icmpge", "if_icmpgt", "if_icmple",
    "if_acmpeq", "if_acmpne"],
    assigned .branch16 .controlFlow .unconditionalBranch ["goto", "jsr"],
    assigned .variable .controlFlow .unconditionalBranch ["ret"],
    assigned .tableSwitch .controlFlow .switch ["tableswitch"],
    assigned .lookupSwitch .controlFlow .switch ["lookupswitch"],
    assigned .empty .controlFlow .methodReturn ["ireturn", "lreturn", "freturn", "dreturn",
    "areturn", "return"],
    assigned .constant16 .object .sequential ["getstatic", "putstatic", "getfield", "putfield"],
    assigned .constant16 .call .call ["invokevirtual", "invokespecial", "invokestatic"],
    assigned .invokeInterface .call .call ["invokeinterface"],
    assigned .invokeDynamic .call .call ["invokedynamic"],
    assigned .constant16 .object .sequential ["new"],
    assigned .uint8 .object .sequential ["newarray"],
    assigned .constant16 .object .sequential ["anewarray"],
    assigned .empty .object .sequential ["arraylength"],
    assigned .empty .controlFlow .exception ["athrow"],
    assigned .constant16 .object .sequential ["checkcast", "instanceof"],
    assigned .empty .misc .sequential ["monitorenter", "monitorexit"],
    assigned .wide .misc .sequential ["wide"],
    assigned .multiArray .object .sequential ["multianewarray"],
    assigned .branch16 .controlFlow .conditionalBranch ["ifnull", "ifnonnull"],
    assigned .branch32 .controlFlow .unconditionalBranch ["goto_w", "jsr_w"],
    assigned .empty .misc .sequential ["breakpoint"],
  unassigned 51,
    assigned .empty .misc .sequential ["impdep1", "impdep2"]]).toArray

/-- What is assigned to an opcode, if anything is. -/
def opcodeInfo? (opcode : UInt8) : Option OpcodeInfo :=
  opcodeTable[opcode.toNat]?.join

/-! ## Opcodes with a meaning of their own -/

def wideOpcode : UInt8 := 0xC4

/-- The four instructions that call a method by reference. -/
def callOpcodes : List UInt8 := [0xB6, 0xB7, 0xB8, 0xB9]

end Forwarding.Bytecode
