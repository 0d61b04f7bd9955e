import Forwarding.Bytecode.Decode
import Forwarding.Proofs.Bytes.Failing

/-!
# What decoding can fail with

An instruction that cannot be decoded is cut short or malformed.  No other error
comes out of the decoder, because none of the readers that it is put together
from has another one.
-/

namespace Forwarding

namespace Bytecode

open Reader

/-! ## Operands -/

theorem onlyUnreadable_variableIndex (wide : Bool) : (variableIndex wide).OnlyUnreadable := by
  cases wide with
  | true => exact onlyUnreadable_u16
  | false => exact onlyUnreadable_u8.map

theorem onlyUnreadable_incrementDelta (wide : Bool) : (incrementDelta wide).OnlyUnreadable := by
  cases wide with
  | true => exact onlyUnreadable_i16
  | false => exact onlyUnreadable_i8.map

theorem onlyUnreadable_readTableSwitch (start : Nat) :
    (readTableSwitch start).OnlyUnreadable := by
  refine (onlyUnreadable_align 4).bind fun _ => ?_
  refine onlyUnreadable_i32.bind fun default => ?_
  refine onlyUnreadable_i32.bind fun low => ?_
  refine onlyUnreadable_i32.bind fun high => ?_
  by_cases hbounds : high < low
  · rw [if_pos hbounds]
    exact onlyUnreadable_malformed _
  · rw [if_neg hbounds]
    exact (onlyUnreadable_bytes _).bind fun _ => onlyUnreadable_pure _

theorem onlyUnreadable_readLookupSwitch (start : Nat) :
    (readLookupSwitch start).OnlyUnreadable := by
  refine (onlyUnreadable_align 4).bind fun _ => ?_
  refine onlyUnreadable_i32.bind fun default => ?_
  refine onlyUnreadable_i32.bind fun count => ?_
  by_cases hcount : count < 0
  · rw [if_pos hcount]
    exact onlyUnreadable_malformed _
  · rw [if_neg hcount]
    exact (onlyUnreadable_bytes _).bind fun _ => onlyUnreadable_pure _

theorem onlyUnreadable_readOperand (start : Nat) (wide : Bool) (layout : Layout) :
    (readOperand start wide layout).OnlyUnreadable := by
  cases layout with
  | empty => exact onlyUnreadable_pure _
  | int8 => exact onlyUnreadable_i8.map
  | uint8 => exact onlyUnreadable_u8.map
  | int16 => exact onlyUnreadable_i16.map
  | constant8 => exact onlyUnreadable_u8.map
  | constant16 => exact onlyUnreadable_u16.map
  | «variable» => exact (onlyUnreadable_variableIndex wide).map
  | increment =>
      exact (onlyUnreadable_variableIndex wide).bind fun _ =>
        (onlyUnreadable_incrementDelta wide).bind fun _ => onlyUnreadable_pure _
  | branch16 => exact onlyUnreadable_i16.map
  | branch32 => exact onlyUnreadable_i32.map
  | invokeInterface =>
      exact onlyUnreadable_u16.bind fun _ => onlyUnreadable_u8.bind fun _ =>
        (onlyUnreadable_skip 1).bind fun _ => onlyUnreadable_pure _
  | invokeDynamic =>
      exact onlyUnreadable_u16.bind fun _ =>
        (onlyUnreadable_skip 2).bind fun _ => onlyUnreadable_pure _
  | multiArray =>
      exact onlyUnreadable_u16.bind fun _ =>
        onlyUnreadable_u8.bind fun _ => onlyUnreadable_pure _
  | tableSwitch => exact onlyUnreadable_readTableSwitch start
  | lookupSwitch => exact onlyUnreadable_readLookupSwitch start
  | wide => exact onlyUnreadable_pure _

/-! ## Instructions -/

variable {error : Error}

theorem isUnreadable_of_codeOffset {value : Int} (hoffset : codeOffset value = .error error) :
    error.IsUnreadable := by
  unfold codeOffset at hoffset
  split at hoffset
  next => cases hoffset
  next =>
    cases hoffset
    exact .malformed _

theorem exists_of_mapM_eq_error {α β : Type} {f : α → Except Error β} {as : List α}
    (hmap : as.mapM f = .error error) : ∃ a, f a = .error error := by
  induction as with
  | nil => cases hmap
  | cons a rest ih =>
      rw [List.mapM_cons] at hmap
      cases ha : f a with
      | error failure =>
          rw [ha] at hmap
          cases hmap
          exact ⟨a, ha⟩
      | ok b =>
          cases hrest : rest.mapM f with
          | error failure =>
              rw [ha, hrest] at hmap
              cases hmap
              exact ih hrest
          | ok bs =>
              rw [ha, hrest] at hmap
              cases hmap

theorem isUnreadable_of_branchTargets {offset : Nat} {operand : Operand}
    (htargets : branchTargets offset operand = .error error) : error.IsUnreadable := by
  obtain ⟨distance, hdistance⟩ := exists_of_mapM_eq_error htargets
  exact isUnreadable_of_codeOffset hdistance

theorem onlyUnreadable_readBody (start : Nat) (wide : Bool) (opcode : UInt8)
    (info : OpcodeInfo) : (readBody start wide opcode info).OnlyUnreadable := by
  refine (onlyUnreadable_readOperand start wide info.layout).bind fun operand => ?_
  refine onlyUnreadable_position.bind fun stop => ?_
  have hoffset (value : Int) : (ofExcept (codeOffset value)).OnlyUnreadable :=
    onlyUnreadable_ofExcept fun _ => isUnreadable_of_codeOffset
  have htargets (offset : Nat) : (ofExcept (branchTargets offset operand)).OnlyUnreadable :=
    onlyUnreadable_ofExcept fun _ => isUnreadable_of_branchTargets
  refine (hoffset _).bind fun offset => ?_
  refine (hoffset _).bind fun size => ?_
  exact (htargets offset).bind fun _ => onlyUnreadable_pure _

theorem onlyUnreadable_readAssigned (start : Nat) (wide : Bool) (opcode : UInt8) :
    (readAssigned start wide opcode).OnlyUnreadable := by
  unfold readAssigned
  cases opcodeInfo? opcode with
  | none => exact onlyUnreadable_malformed _
  | some info =>
      dsimp only
      split
      next => exact onlyUnreadable_malformed _
      next => exact onlyUnreadable_readBody start wide opcode info

theorem onlyUnreadable_readInstruction : readInstruction.OnlyUnreadable := by
  refine onlyUnreadable_position.bind fun start => ?_
  refine onlyUnreadable_u8.bind fun first => ?_
  split
  next => exact onlyUnreadable_u8.bind fun opcode => onlyUnreadable_readAssigned start true opcode
  next => exact onlyUnreadable_readAssigned start false first

/-! ## Whole methods -/

theorem isUnreadable_of_decodeWith {fuel : Nat} {c : Cursor} {backwards : List Instruction}
    (hfailure : (decodeWith fuel c backwards).failure = some error) : error.IsUnreadable := by
  induction fuel generalizing c backwards with
  | zero => cases hfailure
  | succ fuel ih =>
      unfold decodeWith at hfailure
      split at hfailure
      next =>
        split at hfailure
        next => exact ih hfailure
        next failure c' hread =>
          cases hfailure
          exact onlyUnreadable_readInstruction.of_run hread
      next => cases hfailure

end Bytecode

end Forwarding
