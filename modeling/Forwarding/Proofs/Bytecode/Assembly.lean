import Mathlib.Data.List.Forall2
import Forwarding.Bytecode.Instruction
import Forwarding.Proofs.Bytes.Reading

/-!
# Assembled code

What the bytes of a method's code have to be for a list of instructions, said
without the decoder: opcodes and operands in big-endian form, one instruction
right behind the other.  A few bytes may be anything, namely the padding of a
switch and the reserved bytes of two of the calls, so code is assembled into
slots, some of which leave their byte open.
-/

namespace Forwarding.Bytecode

open Reader (toBytes)

/-- A byte of assembled code, or a byte that may be anything. -/
abbrev Slot := Option UInt8

namespace Slot

def certain (bytes : List UInt8) : List Slot := bytes.map some

def free (count : Nat) : List Slot := List.replicate count none

def word16 (value : UInt16) : List Slot := certain (toBytes 2 value.toNat)

def word32 (value : Int32) : List Slot := certain (toBytes 4 value.toUInt32.toNat)

end Slot

open Slot

/-- Whether bytes are what the slots ask for, one by one. -/
def Fills (bytes : List UInt8) (slots : List Slot) : Prop :=
  List.Forall₂ (fun byte slot => ∀ b ∈ slot, byte = b) bytes slots

/-- Whether a position is followed by another multiple of four after just so many
bytes. -/
def IsPadding (position count : Nat) : Prop :=
  count < 4 ∧ 4 ∣ position + count

/-! ## The form of an instruction -/

/-- The form of an operand of an instruction that starts at the given offset, by
its layout and by whether the instruction is a wide one. -/
inductive Operand.Written (start : Nat) :
    (wide : Bool) → Layout → Operand → List Slot → Prop
  | empty : Written start false .empty .empty []
  | int8 (value : Int8) :
      Written start false .int8 (.int8 value) (certain [value.toUInt8])
  | uint8 (value : UInt8) :
      Written start false .uint8 (.uint8 value) (certain [value])
  | int16 (value : Int16) :
      Written start false .int16 (.int16 value) (word16 value.toUInt16)
  | constant8 (index : UInt8) :
      Written start false .constant8 (.constant index.toUInt16) (certain [index])
  | constant16 (index : UInt16) :
      Written start false .constant16 (.constant index) (word16 index)
  | narrowVariable (index : UInt8) :
      Written start false .variable (.variable index.toUInt16) (certain [index])
  | wideVariable (index : UInt16) :
      Written start true .variable (.variable index) (word16 index)
  | narrowIncrement (index : UInt8) (delta : Int8) :
      Written start false .increment (.increment index.toUInt16 delta.toInt16)
        (certain [index, delta.toUInt8])
  | wideIncrement (index : UInt16) (delta : Int16) :
      Written start true .increment (.increment index delta)
        (word16 index ++ word16 delta.toUInt16)
  | branch16 (distance : Int16) :
      Written start false .branch16 (.branch distance.toInt32) (word16 distance.toUInt16)
  | branch32 (distance : Int32) :
      Written start false .branch32 (.branch distance) (word32 distance)
  | invokeInterface (index : UInt16) (count : UInt8) :
      Written start false .invokeInterface (.invokeInterface index count)
        (word16 index ++ certain [count] ++ free 1)
  | invokeDynamic (index : UInt16) :
      Written start false .invokeDynamic (.constant index) (word16 index ++ free 2)
  | multiArray (index : UInt16) (dimensions : UInt8) :
      Written start false .multiArray (.multiArray index dimensions)
        (word16 index ++ certain [dimensions])
  | tableSwitch (default low high : Int32) (offsets : List Int32) (padding : Nat)
      (hpadding : IsPadding (start + 1) padding) (hbounds : low ≤ high)
      (hcount : (offsets.length : Int) = high.toInt - low.toInt + 1) :
      Written start false .tableSwitch (.tableSwitch default low high offsets)
        (free padding ++ (word32 default ++ (word32 low ++ (word32 high ++
          offsets.flatMap word32))))
  | lookupSwitch (default count : Int32) (pairs : List (Int32 × Int32)) (padding : Nat)
      (hpadding : IsPadding (start + 1) padding)
      (hcount : (pairs.length : Int) = count.toInt) :
      Written start false .lookupSwitch (.lookupSwitch default pairs)
        (free padding ++ (word32 default ++ (word32 count ++
          pairs.flatMap fun pair => word32 pair.1 ++ word32 pair.2)))

/-- The positions where any byte may stand, for an instruction that starts at the
given offset. -/
def Layout.IsFree (start position : Nat) : Layout → Prop
  | .tableSwitch => start < position ∧ position < (start + 4) / 4 * 4
  | .lookupSwitch => start < position ∧ position < (start + 4) / 4 * 4
  | .invokeInterface => position = start + 4
  | .invokeDynamic => position = start + 3 ∨ position = start + 4
  | _ => False

namespace Instruction

def IsFree (i : Instruction) (position : Nat) : Prop :=
  i.info.layout.IsFree i.offset position

def opcodeBytes (i : Instruction) : List UInt8 :=
  if i.wide then [wideOpcode, i.opcode] else [i.opcode]

/-- Whether an instruction is one of the instruction set, with branch targets that
exist, and has the form of the slots. -/
structure Assembled (i : Instruction) (slots : List Slot) : Prop where
  assigned : opcodeInfo? i.opcode = some i.info
  not_wide : i.opcode ≠ wideOpcode
  written : ∃ operand, i.operand.Written i.offset i.wide i.info.layout operand ∧
    slots = certain i.opcodeBytes ++ operand
  size : i.size = slots.length
  targets : i.targets.map (fun target : Nat => (target : Int)) =
    i.operand.distances.map fun distance : Int32 => (i.offset : Int) + distance.toInt
  targets_lt : ∀ target ∈ i.targets, target < 2 ^ 32

end Instruction

/-- Whether instructions that begin at an offset follow each other without a gap
and have the form of the slots. -/
inductive Assembles : Nat → List Instruction → List Slot → Prop
  | nil (offset : Nat) : Assembles offset [] []
  | cons {offset : Nat} {i : Instruction} {rest : List Instruction}
      {slots others : List Slot} (hoffset : i.offset = offset) (hi : i.Assembled slots)
      (hrest : Assembles i.nextOffset rest others) :
      Assembles offset (i :: rest) (slots ++ others)

/-- Whether instructions cover a code of the given size from its beginning to its
end. -/
structure Tiles (instructions : List Instruction) (size : Nat) : Prop where
  first : ∀ i ∈ instructions.head?, i.offset = 0
  next : instructions.IsChain fun i j => i.nextOffset = j.offset
  last : ∀ i ∈ instructions.getLast?, i.nextOffset = size
  empty : instructions = [] → size = 0
  nonempty : ∀ i ∈ instructions, 0 < i.size
  in_range : ∀ i ∈ instructions, i.nextOffset < 2 ^ 32

variable {bytes bytes' first second : List UInt8} {slots slots' : List Slot}
  {start offset position : Nat} {instructions : List Instruction} {i : Instruction}

/-! ## Filling slots -/

@[simp] theorem fills_nil_iff : Fills bytes [] ↔ bytes = [] :=
  List.forall₂_nil_right_iff

@[simp] theorem fills_certain_iff : Fills bytes (certain first) ↔ bytes = first := by
  induction first generalizing bytes with
  | nil => simp [certain]
  | cons b rest ih =>
      cases bytes with
      | nil => simp [certain, Fills]
      | cons byte others => simp_all [certain, Fills]

@[simp] theorem fills_free_iff {count : Nat} : Fills bytes (free count) ↔ bytes.length = count := by
  induction count generalizing bytes with
  | zero => simp [free]
  | succ count ih =>
      cases bytes with
      | nil => simp [free, Fills, List.replicate_succ]
      | cons byte others => simpa [free, Fills, List.replicate_succ] using ih

theorem fills_append_iff :
    Fills bytes (slots ++ slots') ↔
      ∃ first second, bytes = first ++ second ∧ Fills first slots ∧ Fills second slots' := by
  constructor
  · intro hfills
    refine ⟨bytes.take slots.length, bytes.drop slots.length,
      (List.take_append_drop ..).symm, ?_, ?_⟩
    · exact List.forall₂_take_append _ _ _ hfills
    · exact List.forall₂_drop_append _ _ _ hfills
  · rintro ⟨first, second, rfl, hfirst, hsecond⟩
    exact List.rel_append hfirst hsecond

theorem Fills.length_eq (hfills : Fills bytes slots) : bytes.length = slots.length :=
  List.Forall₂.length_eq hfills

/-- Two rows of bytes fill the same slots if they differ at free slots only. -/
theorem Fills.fills_iff (hfills : Fills bytes slots) :
    Fills bytes' slots ↔ bytes'.length = bytes.length ∧
      ∀ k : Nat, slots[k]? ≠ some none → bytes'[k]? = bytes[k]? := by
  induction hfills generalizing bytes' with
  | nil => simp +contextual
  | @cons byte slot rest others hbyte hrest ih =>
      cases bytes' with
      | nil => simp [Fills]
      | cons byte' rest' =>
          have htail : Fills rest' others ↔ rest'.length = rest.length ∧
              ∀ k : Nat, others[k]? ≠ some none → rest'[k]? = rest[k]? := ih
          have hhead : (∀ b ∈ slot, byte' = b) ↔ (slot ≠ none → byte' = byte) := by
            cases slot with
            | none => simp
            | some b => simp [hbyte b rfl]
          unfold Fills at htail ⊢
          rw [List.forall₂_cons, hhead, htail]
          simp only [List.length_cons, Nat.add_right_cancel_iff]
          constructor
          · rintro ⟨hbyte', hlength, hagree⟩
            refine ⟨hlength, fun k hk => ?_⟩
            cases k with
            | zero => simpa using hbyte' (by simpa using hk)
            | succ k => simpa using hagree k (by simpa using hk)
          · rintro ⟨hlength, hagree⟩
            refine ⟨fun hslot => ?_, hlength, fun k hk => ?_⟩
            · simpa using hagree 0 (by simpa using hslot)
            · simpa using hagree (k + 1) (by simpa using hk)

/-! ## Free positions -/

theorem getElem?_append_eq_none_iff {k : Nat} :
    (slots ++ slots')[k]? = some none ↔
      slots[k]? = some none ∨ slots.length ≤ k ∧ slots'[k - slots.length]? = some none := by
  rw [List.getElem?_append]
  split
  next hlt =>
    have hnot : ¬slots.length ≤ k := by omega
    simp [hnot]
  next hge =>
    have hle : slots.length ≤ k := by omega
    simp [hle]

theorem getElem?_ne_of_not_mem {k : Nat} (hnone : none ∉ slots) :
    slots[k]? ≠ some none :=
  fun hk => hnone (List.mem_of_getElem? hk)

@[simp] theorem none_not_mem_certain : none ∉ certain bytes := by
  simp [certain]

@[simp] theorem getElem?_certain_ne {k : Nat} : (certain bytes)[k]? ≠ some none :=
  getElem?_ne_of_not_mem none_not_mem_certain

@[simp] theorem getElem?_free_eq_none_iff {count k : Nat} :
    (free count)[k]? = some none ↔ k < count := by
  simp [free, List.getElem?_replicate]

@[simp] theorem length_certain : (certain bytes).length = bytes.length :=
  List.length_map _

@[simp] theorem length_free (count : Nat) : (free count).length = count :=
  List.length_replicate

/-- Behind the opcode of a switch only the padding is free. -/
theorem getElem?_padded_eq_none_iff {padding k : Nat} (hopcode : bytes.length = 1)
    (hpadding : IsPadding (start + 1) padding) (hslots : none ∉ slots) :
    (certain bytes ++ (free padding ++ slots))[k]? = some none ↔
      start < start + k ∧ start + k < (start + 4) / 4 * 4 := by
  have hsmall := hpadding.1
  have hnext := hpadding.2
  have hbehind : slots[k - 1 - padding]? ≠ some none := getElem?_ne_of_not_mem hslots
  simp only [getElem?_append_eq_none_iff, getElem?_free_eq_none_iff, getElem?_certain_ne,
    length_certain, length_free, hopcode, hbehind, and_false, or_false, false_or]
  omega

theorem Operand.Written.getElem?_eq_none_iff {operand : Operand} {wide : Bool} {layout : Layout}
    {k : Nat} (hwritten : operand.Written start wide layout slots)
    (hopcode : bytes.length = if wide then 2 else 1) :
    (certain bytes ++ slots)[k]? = some none ↔ layout.IsFree start (start + k) := by
  cases hwritten with
  | tableSwitch default low high offsets padding hpadding =>
      exact getElem?_padded_eq_none_iff hopcode hpadding (by simp [word32])
  | lookupSwitch default count pairs padding hpadding =>
      exact getElem?_padded_eq_none_iff hopcode hpadding (by simp [word32])
  | invokeInterface index count =>
      simp only [getElem?_append_eq_none_iff, getElem?_certain_ne, getElem?_free_eq_none_iff,
        List.append_assoc, length_certain, hopcode, word16, Reader.length_toBytes,
        Layout.IsFree, List.length_singleton, false_or, Bool.false_eq_true, if_false]
      omega
  | invokeDynamic index =>
      simp only [getElem?_append_eq_none_iff, getElem?_certain_ne, getElem?_free_eq_none_iff,
        length_certain, hopcode, word16, Reader.length_toBytes, Layout.IsFree, false_or,
        Bool.false_eq_true, if_false]
      omega
  | _ =>
      apply iff_of_false (getElem?_ne_of_not_mem _) id
      simp [word16, word32]

theorem Instruction.Assembled.getElem?_eq_none_iff {k : Nat} (hi : i.Assembled slots) :
    slots[k]? = some none ↔ i.IsFree (i.offset + k) := by
  obtain ⟨operand, hwritten, rfl⟩ := hi.written
  apply hwritten.getElem?_eq_none_iff
  unfold opcodeBytes
  split <;> rfl

theorem Layout.IsFree.lt {layout : Layout} (hfree : layout.IsFree start position) :
    start < position := by
  cases layout <;> simp only [IsFree] at hfree <;> omega

theorem Instruction.Assembled.nextOffset_eq (hi : i.Assembled slots) :
    i.nextOffset = i.offset + slots.length := by
  rw [Instruction.nextOffset, hi.size]

theorem Assembles.offset_le (hall : Assembles offset instructions slots)
    (hi : i ∈ instructions) : offset ≤ i.offset := by
  induction hall with
  | nil => simp at hi
  | cons hoffset hhead _ ih =>
      have hend := hhead.nextOffset_eq
      rcases List.mem_cons.mp hi with rfl | hrest
      · exact Nat.le_of_eq hoffset.symm
      · have hnext := ih hrest
        omega

/-- The free slots are the free positions of the instructions. -/
theorem Assembles.getElem?_eq_none_iff {k : Nat} (hall : Assembles offset instructions slots) :
    slots[k]? = some none ↔ ∃ i ∈ instructions, i.IsFree (offset + k) := by
  induction hall generalizing k with
  | nil => simp
  | @cons offset i rest slots others hoffset hi hrest ih =>
      subst hoffset
      rw [hi.nextOffset_eq] at hrest ih
      have hothers : (slots.length ≤ k ∧ others[k - slots.length]? = some none) ↔
          ∃ j ∈ rest, j.IsFree (i.offset + k) := by
        constructor
        · rintro ⟨hle, hk⟩
          obtain ⟨j, hj, hfree⟩ := ih.mp hk
          rw [Nat.add_assoc, Nat.add_sub_cancel' hle] at hfree
          exact ⟨j, hj, hfree⟩
        · rintro ⟨j, hj, hfree⟩
          have hlt := Layout.IsFree.lt hfree
          have hle := hrest.offset_le hj
          have hk : slots.length ≤ k := by omega
          refine ⟨hk, ih.mpr ⟨j, hj, ?_⟩⟩
          rwa [Nat.add_assoc, Nat.add_sub_cancel' hk]
      rw [getElem?_append_eq_none_iff, hi.getElem?_eq_none_iff, hothers]
      simp

/-! ## Tiling -/

theorem Instruction.Assembled.size_pos (hi : i.Assembled slots) : 0 < i.size := by
  obtain ⟨operand, -, rfl⟩ := hi.written
  have hopcode : 0 < i.opcodeBytes.length := by
    unfold opcodeBytes
    split <;> simp
  rw [hi.size, List.length_append, length_certain]
  omega

theorem Assembles.isChain (hall : Assembles offset instructions slots) :
    instructions.IsChain (fun i j => i.nextOffset = j.offset) ∧
      ∀ i ∈ instructions.head?, i.offset = offset := by
  induction hall with
  | nil => simp
  | @cons offset i rest slots others hoffset hi hrest ih =>
      refine ⟨?_, by simpa using hoffset⟩
      cases rest with
      | nil => simp
      | cons j rest =>
          have hj := ih.2 j rfl
          exact List.isChain_cons_cons.mpr ⟨hj.symm, ih.1⟩

theorem Assembles.nextOffset_le (hall : Assembles offset instructions slots)
    (hi : i ∈ instructions) : i.nextOffset ≤ offset + slots.length := by
  induction hall with
  | nil => simp at hi
  | cons hoffset hhead _ ih =>
      have hend := hhead.nextOffset_eq
      rw [List.length_append]
      rcases List.mem_cons.mp hi with rfl | hrest
      · omega
      · have hnext := ih hrest
        omega

theorem Assembles.nextOffset_last (hall : Assembles offset instructions slots)
    (hi : i ∈ instructions.getLast?) : i.nextOffset = offset + slots.length := by
  induction hall with
  | nil => simp at hi
  | @cons offset j rest slots others hoffset hhead hrest ih =>
      have hend := hhead.nextOffset_eq
      rw [List.length_append]
      cases rest with
      | nil =>
          cases hrest
          have hij : j = i := by simpa using hi
          subst hij
          rw [List.length_nil]
          omega
      | cons k rest =>
          have hlast := ih (by simpa [List.getLast?_cons_cons] using hi)
          omega

theorem Assembles.assembled (hall : Assembles offset instructions slots)
    (hi : i ∈ instructions) : ∃ part, i.Assembled part := by
  induction hall with
  | nil => simp at hi
  | cons _ hhead _ ih =>
      rcases List.mem_cons.mp hi with rfl | hrest
      · exact ⟨_, hhead⟩
      · exact ih hrest

theorem Assembles.tiles (hall : Assembles 0 instructions slots)
    (hsize : slots.length < 2 ^ 32) : Tiles instructions slots.length where
  first := hall.isChain.2
  next := hall.isChain.1
  last i hi := by rw [hall.nextOffset_last hi, Nat.zero_add]
  empty := by
    rintro rfl
    cases hall
    rfl
  nonempty i hi := by
    obtain ⟨part, hpart⟩ := hall.assembled hi
    exact hpart.size_pos
  in_range i hi := by
    have hle := hall.nextOffset_le hi
    omega

/-! ## One form for each list of instructions -/

theorem IsPadding.eq {count count' : Nat} (hcount : IsPadding position count)
    (hcount' : IsPadding position count') : count = count' := by
  unfold IsPadding at hcount hcount'
  omega

/-- An operand has one form, because no operand is written in two ways. -/
theorem Operand.Written.slots_eq {operand operand' : Operand} {wide : Bool} {layout : Layout}
    (hwritten : operand.Written start wide layout slots)
    (hwritten' : operand'.Written start wide layout slots') (hsame : operand = operand') :
    slots = slots' := by
  have hdelta (a b : Int8) : a.toInt16 = b.toInt16 ↔ a = b :=
    ⟨fun h => by simpa using congrArg Int16.toInt8 h, fun h => by rw [h]⟩
  have hdistance (a b : Int16) : a.toInt32 = b.toInt32 ↔ a = b :=
    ⟨fun h => by simpa using congrArg Int32.toInt16 h, fun h => by rw [h]⟩
  cases hwritten with
  | tableSwitch default low high offsets padding hpadding =>
      cases hwritten' with
      | tableSwitch default' low' high' offsets' padding' hpadding' =>
          cases hsame
          rw [hpadding.eq hpadding']
  | lookupSwitch default count pairs padding hpadding hcount =>
      cases hwritten' with
      | lookupSwitch default' count' pairs' padding' hpadding' hcount' =>
          cases hsame
          have hsame : count = count' := Int32.toInt_inj.mp (hcount.symm.trans hcount')
          rw [hpadding.eq hpadding', hsame]
  | _ => cases hwritten' with
    | _ => simp_all [UInt8.toUInt16_inj]

theorem Instruction.Assembled.slots_eq (hi : i.Assembled slots) (hi' : i.Assembled slots') :
    slots = slots' := by
  obtain ⟨operand, hwritten, rfl⟩ := hi.written
  obtain ⟨operand', hwritten', rfl⟩ := hi'.written
  rw [hwritten.slots_eq hwritten' rfl]

theorem Assembles.slots_eq (hall : Assembles offset instructions slots)
    (hall' : Assembles offset instructions slots') : slots = slots' := by
  induction hall generalizing slots' with
  | nil =>
      cases hall'
      rfl
  | cons _ hi _ ih =>
      cases hall' with
      | cons _ hi' hrest' => rw [hi.slots_eq hi', ih hrest']

end Forwarding.Bytecode
