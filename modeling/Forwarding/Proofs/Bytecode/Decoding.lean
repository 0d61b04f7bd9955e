import Forwarding.Proofs.Bytecode.Operands

/-!
# Decoding inverts assembling

The decoder accepts code if and only if it is assembled from the instructions
that it gives.
-/

namespace Forwarding.Bytecode

open Reader Slot

variable {bytes : List UInt8} {slots : List Slot} {start position : Nat}
  {operand : Operand} {layout : Layout} {i : Instruction} {instructions : List Instruction}

/-! ## Instructions -/

theorem layout_eq_wide_iff {opcode : UInt8} {info : OpcodeInfo}
    (hinfo : opcodeInfo? opcode = some info) : info.layout = .wide ↔ opcode = wideOpcode := by
  have htable : ∀ row ∈ opcodeInfo? opcode, (row.layout = .wide ↔ opcode = wideOpcode) :=
    @forall_byte (fun opcode => ∀ row ∈ opcodeInfo? opcode,
      (row.layout = .wide ↔ opcode = wideOpcode)) (by decide +kernel) opcode
  exact htable info hinfo

/-- What a reader behind the opcode of an instruction has to find. -/
structure BodyOf (start : Nat) (wide : Bool) (opcode : UInt8) (info : OpcodeInfo)
    (size : Nat) (i : Instruction) : Prop where
  eq : i = ⟨start, size, opcode, info, wide, i.operand, i.targets⟩
  targets : i.targets.map (fun target : Nat => (target : Int)) =
    i.operand.distances.map fun distance : Int32 => (start : Int) + distance.toInt
  targets_lt : ∀ target ∈ i.targets, target < 2 ^ 32

theorem reads_readBody_iff {wide : Bool} {opcode : UInt8} {info : OpcodeInfo} :
    (readBody start wide opcode info).Reads position bytes i ↔
      (readOperand start wide info.layout).Reads position bytes i.operand ∧
        start < 2 ^ 32 ∧ position + bytes.length - start < 2 ^ 32 ∧
        BodyOf start wide opcode info (position + bytes.length - start) i := by
  unfold readBody
  constructor
  · intro hreads
    obtain ⟨first, rest, operand, rfl, hoperand, hreads⟩ := reads_bind_iff.mp hreads
    obtain ⟨_, rest, stop, rfl, hstop, hreads⟩ := reads_bind_iff.mp hreads
    obtain ⟨rfl, rfl⟩ := reads_position_iff.mp hstop
    obtain ⟨_, rest, offset, rfl, hoffset, hreads⟩ := reads_bind_iff.mp hreads
    obtain ⟨rfl, hoffset'⟩ := reads_ofExcept_iff.mp hoffset
    obtain ⟨_, rest, size, rfl, hsize, hreads⟩ := reads_bind_iff.mp hreads
    obtain ⟨rfl, hsize'⟩ := reads_ofExcept_iff.mp hsize
    obtain ⟨targets, htargets, rfl⟩ := reads_bind_pure_iff.mp hreads
    obtain ⟨rfl, htargets'⟩ := reads_ofExcept_iff.mp htargets
    obtain ⟨hsame, hstart⟩ := codeOffset_eq_ok_iff.mp hoffset'
    obtain ⟨hsame', hshort⟩ := codeOffset_eq_ok_iff.mp hsize'
    have hoffset := Int.ofNat_inj.mp hsame
    have hsize := Int.ofNat_inj.mp hsame'
    subst hoffset hsize
    obtain ⟨hsums, hlt⟩ := branchTargets_eq_ok_iff.mp htargets'
    simp only [List.append_nil]
    exact ⟨hoperand, hstart, hshort, rfl, hsums, hlt⟩
  · rintro ⟨hoperand, hstart, hshort, hbody⟩
    rw [hbody.eq]
    apply reads_bind_iff.mpr
    refine ⟨bytes, [], i.operand, (List.append_nil _).symm, hoperand, ?_⟩
    apply reads_bind_iff.mpr
    refine ⟨[], [], _, rfl, reads_position_iff.mpr ⟨rfl, rfl⟩, ?_⟩
    apply reads_bind_iff.mpr
    refine ⟨[], [], start, rfl, reads_ofExcept_iff.mpr ⟨rfl, ?_⟩, ?_⟩
    · exact codeOffset_eq_ok_iff.mpr ⟨rfl, hstart⟩
    apply reads_bind_iff.mpr
    refine ⟨[], [], position + bytes.length - start, rfl, reads_ofExcept_iff.mpr ⟨rfl, ?_⟩, ?_⟩
    · exact codeOffset_eq_ok_iff.mpr ⟨rfl, hshort⟩
    refine reads_bind_pure_iff.mpr ⟨i.targets, reads_ofExcept_iff.mpr ⟨rfl, ?_⟩, rfl⟩
    exact branchTargets_eq_ok_iff.mpr ⟨hbody.targets, hbody.targets_lt⟩

theorem reads_readAssigned_iff {wide : Bool} {opcode : UInt8} :
    (readAssigned start wide opcode).Reads position bytes i ↔
      ∃ info, opcodeInfo? opcode = some info ∧ (wide = true → info.layout.widens = true) ∧
        (readBody start wide opcode info).Reads position bytes i := by
  unfold readAssigned
  cases opcodeInfo? opcode with
  | none => simp
  | some info =>
      cases wide <;> cases hwidens : info.layout.widens <;> simp [hwidens]

theorem Operand.Written.layout_ne {wide : Bool}
    (hwritten : operand.Written start wide layout slots) : layout ≠ .wide := by
  cases hwritten <;> simp

theorem Operand.Written.widens {wide : Bool}
    (hwritten : operand.Written start wide layout slots) (hwide : wide = true) :
    layout.widens = true := by
  cases hwritten <;> simp_all [Layout.widens]

/-- Reading goes on behind the opcode, or behind `wide` and the opcode. -/
theorem reads_readOperand_iff {wide : Bool} (hnarrow : layout ≠ .wide)
    (hwide : wide = true → layout.widens = true)
    (hposition : position = start + if wide then 2 else 1) :
    (readOperand start wide layout).Reads position bytes operand ↔
      ∃ slots, operand.Written start wide layout slots ∧ Fills bytes slots := by
  cases wide with
  | false =>
      rw [hposition]
      exact reads_readNarrow_iff hnarrow
  | true => exact reads_readWide_iff (hwide rfl)

theorem reads_readAssigned_iff_assembled {wide : Bool} {opcode : UInt8} {opcodes : List UInt8}
    (hopcodes : opcodes = if wide then [wideOpcode, opcode] else [opcode])
    (hnarrow : wide = false → opcode ≠ wideOpcode) :
    (readAssigned start wide opcode).Reads (start + opcodes.length) bytes i ↔
      (i.offset = start ∧ i.wide = wide ∧ i.opcode = opcode) ∧
        start < 2 ^ 32 ∧ opcodes.length + bytes.length < 2 ^ 32 ∧
        ∃ slots, i.Assembled slots ∧ Fills (opcodes ++ bytes) slots := by
  have hbehind : start + opcodes.length = start + if wide then 2 else 1 := by
    rw [hopcodes]
    split <;> rfl
  have hwidth : start + opcodes.length + bytes.length - start =
      opcodes.length + bytes.length := by
    omega
  rw [reads_readAssigned_iff]
  simp only [reads_readBody_iff, hwidth]
  constructor
  · rintro ⟨info, hinfo, hwidens, hoperand, hstart, hshort, hbody⟩
    have hassigned : opcode ≠ wideOpcode := by
      cases wide with
      | false => exact hnarrow rfl
      | true =>
          have hwidens := hwidens rfl
          intro hopcode
          rw [(layout_eq_wide_iff hinfo).mpr hopcode] at hwidens
          simp [Layout.widens] at hwidens
    have hlayout : info.layout ≠ .wide := fun h => hassigned ((layout_eq_wide_iff hinfo).mp h)
    obtain ⟨slots, hwritten, hfills⟩ :=
      (reads_readOperand_iff hlayout hwidens hbehind).mp hoperand
    obtain ⟨offset, size, opcode', info', wide', operand, targets⟩ := i
    cases hbody.eq
    refine ⟨⟨rfl, rfl, rfl⟩, hstart, hshort, certain opcodes ++ slots, ?_, ?_⟩
    · exact {
        assigned := hinfo
        not_wide := hassigned
        written := ⟨slots, hwritten, by rw [hopcodes, Instruction.opcodeBytes]⟩
        size := by rw [List.length_append, length_certain, hfills.length_eq]
        targets := hbody.targets
        targets_lt := hbody.targets_lt }
    · exact fills_append_iff.mpr ⟨opcodes, bytes, rfl, fills_certain_iff.mpr rfl, hfills⟩
  · rintro ⟨⟨rfl, rfl, rfl⟩, hstart, hshort, slots, hi, hfills⟩
    obtain ⟨operand, hwritten, rfl⟩ := hi.written
    have hsame : i.opcodeBytes = opcodes := hopcodes.symm
    have hlength := hfills.length_eq
    rw [hsame] at hfills hlength hi
    rw [fills_append_iff] at hfills
    obtain ⟨first, rest, hsplit, hfirst, hrest⟩ := hfills
    rw [fills_certain_iff.mp hfirst] at hsplit
    rw [← List.append_cancel_left hsplit] at hrest
    have hread := (reads_readOperand_iff hwritten.layout_ne hwritten.widens hbehind).mpr
      ⟨operand, hwritten, hrest⟩
    refine ⟨i.info, hi.assigned, hwritten.widens, hread, hstart, hshort, ?_⟩
    have hsize : opcodes.length + bytes.length = i.size := by
      rw [hi.size, ← hlength, List.length_append]
    rw [hsize]
    exact ⟨rfl, hi.targets, hi.targets_lt⟩

/-- An instruction is read off bytes if and only if it is assembled to them. -/
theorem reads_readInstruction_iff :
    readInstruction.Reads start bytes i ↔
      i.offset = start ∧ start < 2 ^ 32 ∧ bytes.length < 2 ^ 32 ∧
        ∃ slots, i.Assembled slots ∧ Fills bytes slots := by
  unfold readInstruction
  constructor
  · intro hreads
    obtain ⟨none, rest, position, rfl, hposition, hreads⟩ := reads_bind_iff.mp hreads
    obtain ⟨rfl, rfl⟩ := reads_position_iff.mp hposition
    obtain ⟨first, rest, byte, rfl, hbyte, hreads⟩ := reads_bind_iff.mp hreads
    rw [reads_u8_iff] at hbyte
    subst hbyte
    split at hreads
    next hwide =>
      subst hwide
      obtain ⟨second, rest, opcode, rfl, hopcode, hreads⟩ := reads_bind_iff.mp hreads
      rw [reads_u8_iff] at hopcode
      subst hopcode
      have hassigned := (@reads_readAssigned_iff_assembled rest position i true opcode
        [wideOpcode, opcode] rfl (by simp)).mp hreads
      obtain ⟨⟨hoffset, -, -⟩, hstart, hshort, hslots⟩ := hassigned
      exact ⟨hoffset, hstart, by simpa [Nat.add_comm, Nat.add_left_comm] using hshort, hslots⟩
    next hnarrow =>
      have hassigned := (@reads_readAssigned_iff_assembled rest position i false byte
        [byte] rfl fun _ => hnarrow).mp hreads
      obtain ⟨⟨hoffset, -, -⟩, hstart, hshort, hslots⟩ := hassigned
      exact ⟨hoffset, hstart, by simpa [Nat.add_comm] using hshort, hslots⟩
  · rintro ⟨rfl, hstart, hshort, slots, hi, hfills⟩
    apply reads_bind_iff.mpr
    refine ⟨[], bytes, i.offset, rfl, reads_position_iff.mpr ⟨rfl, rfl⟩, ?_⟩
    obtain ⟨operand, hwritten, hslots⟩ := hi.written
    have hfront := hfills
    rw [hslots, fills_append_iff] at hfront
    obtain ⟨first, rest, rfl, hfirst, -⟩ := hfront
    rw [fills_certain_iff.mp hfirst] at hfills hshort ⊢
    rw [List.length_append] at hshort
    cases hwide : i.wide with
    | true =>
        have hopcodes : i.opcodeBytes = [wideOpcode, i.opcode] := by
          rw [Instruction.opcodeBytes, hwide, if_pos rfl]
        rw [hopcodes] at hfills hshort ⊢
        apply reads_bind_iff.mpr
        refine ⟨[wideOpcode], i.opcode :: rest, wideOpcode, rfl, reads_u8_iff.mpr rfl, ?_⟩
        rw [if_pos rfl]
        apply reads_bind_iff.mpr
        refine ⟨[i.opcode], rest, i.opcode, rfl, reads_u8_iff.mpr rfl, ?_⟩
        exact (reads_readAssigned_iff_assembled rfl (by simp)).mpr
          ⟨⟨rfl, hwide, rfl⟩, hstart, hshort, slots, hi, hfills⟩
    | false =>
        have hopcodes : i.opcodeBytes = [i.opcode] := by
          rw [Instruction.opcodeBytes, hwide, if_neg (by simp)]
        rw [hopcodes] at hfills hshort ⊢
        apply reads_bind_iff.mpr
        refine ⟨[i.opcode], rest, i.opcode, rfl, reads_u8_iff.mpr rfl, ?_⟩
        rw [if_neg hi.not_wide]
        exact (reads_readAssigned_iff_assembled rfl fun _ => hi.not_wide).mpr
          ⟨⟨rfl, hwide, rfl⟩, hstart, hshort, slots, hi, hfills⟩

/-! ## Whole methods -/

theorem assembles_nil_iff {offset : Nat} :
    Assembles offset instructions [] ↔ instructions = [] := by
  constructor
  · intro hall
    cases instructions with
    | nil => rfl
    | cons i rest =>
        have htiles := hall.nextOffset_le (List.mem_cons_self ..)
        have hle := hall.offset_le (List.mem_cons_self ..)
        obtain ⟨part, hpart⟩ := hall.assembled (List.mem_cons_self ..)
        have hpos := hpart.size_pos
        simp only [Instruction.nextOffset, List.length_nil] at htiles
        omega
  · rintro rfl
    exact .nil offset

/-- Whether instructions are assembled to what a cursor has left, at offsets that
fit 32 bits. -/
structure RestOf (c : Cursor) (instructions : List Instruction) : Prop where
  fills : ∃ slots, Assembles c.position instructions slots ∧ Fills c.rest slots
  in_range : ∀ i ∈ instructions, i.offset < 2 ^ 32 ∧ i.size < 2 ^ 32

theorem restOf_iff_of_done {c : Cursor} (hdone : c.remaining = 0) :
    RestOf c instructions ↔ instructions = [] := by
  have hrest : c.rest = [] := List.eq_nil_of_length_eq_zero (by simpa using hdone)
  constructor
  · rintro ⟨⟨slots, hall, hfills⟩, -⟩
    rw [hrest] at hfills
    rw [List.eq_nil_of_length_eq_zero hfills.length_eq.symm] at hall
    exact assembles_nil_iff.mp hall
  · rintro rfl
    rw [← fills_nil_iff] at hrest
    exact ⟨⟨[], .nil _, hrest⟩, by simp⟩

/-- The first of the instructions is read off, and the others are assembled to what
it leaves. -/
theorem restOf_cons_iff {c : Cursor} :
    RestOf c (i :: instructions) ↔
      ∃ c', readInstruction.run c = (.ok i, c') ∧ RestOf c' instructions := by
  constructor
  · rintro ⟨⟨_, hall, hfills⟩, hrange⟩
    obtain ⟨hhead, hothers⟩ := List.forall_mem_cons.mp hrange
    cases hall with
    | cons hoffset hi hrest =>
        obtain ⟨first, rest, hsplit, hfirst, hbehind⟩ := fills_append_iff.mp hfills
        obtain ⟨c', hpasses, rfl⟩ := Cursor.exists_passes hsplit
        have hlength : i.size = first.length := by rw [hi.size, hfirst.length_eq]
        have hread : readInstruction.Reads c.position first i :=
          reads_readInstruction_iff.mpr ⟨hoffset, by omega, by omega, _, hi, hfirst⟩
        have hnext : i.nextOffset = c'.position := by
          rw [Instruction.nextOffset, hoffset, hlength, hpasses.position]
        rw [hnext] at hrest
        exact ⟨c', run_eq_ok_iff.mpr ⟨first, hpasses, hread⟩, ⟨_, hrest, hbehind⟩, hothers⟩
  · rintro ⟨c', hrun, ⟨others, hrest, hbehind⟩, hothers⟩
    obtain ⟨first, hpasses, hread⟩ := run_eq_ok_iff.mp hrun
    obtain ⟨hoffset, hstart, hshort, slots, hi, hfirst⟩ := reads_readInstruction_iff.mp hread
    have hlength : i.size = first.length := by rw [hi.size, hfirst.length_eq]
    have hnext : c'.position = i.nextOffset := by
      rw [Instruction.nextOffset, hoffset, hlength, hpasses.position]
    rw [hnext] at hrest
    refine ⟨⟨slots ++ others, .cons hoffset hi hrest, ?_⟩, ?_⟩
    · exact fills_append_iff.mpr ⟨first, c'.rest, hpasses.rest, hfirst, hbehind⟩
    · exact List.forall_mem_cons.mpr ⟨⟨by omega, by omega⟩, hothers⟩

theorem not_restOf_nil {c : Cursor} (hmore : 0 < c.remaining) : ¬RestOf c [] := by
  rintro ⟨⟨slots, hall, hfills⟩, -⟩
  cases hall
  have hlength := hfills.length_eq
  simp only [Cursor.length_rest, List.length_nil] at hlength
  omega

theorem remaining_lt_of_readInstruction {c c' : Cursor}
    (hrun : readInstruction.run c = (.ok i, c')) : c'.remaining < c.remaining := by
  obtain ⟨bytes, hpasses, hread⟩ := run_eq_ok_iff.mp hrun
  obtain ⟨-, -, -, slots, hi, hfills⟩ := reads_readInstruction_iff.mp hread
  have hpos := hi.size_pos
  rw [hi.size, ← hfills.length_eq] at hpos
  have hlength := congrArg List.length hpasses.rest
  simp only [Cursor.length_rest, List.length_append] at hlength
  omega

theorem decodeWith_iff {fuel : Nat} {c : Cursor} {backwards result : List Instruction}
    (hfuel : c.remaining ≤ fuel) :
    ((decodeWith fuel c backwards).failure = none ∧
        (decodeWith fuel c backwards).instructions = result) ↔
      ∃ instructions, RestOf c instructions ∧ backwards.reverse ++ instructions = result := by
  induction fuel generalizing c backwards with
  | zero => simp [decodeWith, restOf_iff_of_done (Nat.eq_zero_of_le_zero hfuel)]
  | succ fuel ih =>
      have hmore : c.hasMore = true ↔ 0 < c.remaining := by
        simp only [Cursor.hasMore, Cursor.remaining, decide_eq_true_eq]
        omega
      unfold decodeWith
      split
      next hsome =>
        have hnil := not_restOf_nil (hmore.mp hsome)
        split
        next i c' hrun =>
          have hless := remaining_lt_of_readInstruction hrun
          rw [ih (by omega)]
          constructor
          · rintro ⟨rest, hrest, hresult⟩
            refine ⟨i :: rest, restOf_cons_iff.mpr ⟨c', hrun, hrest⟩, ?_⟩
            simpa using hresult
          · rintro ⟨instructions, hrest, hresult⟩
            cases instructions with
            | nil => exact absurd hrest hnil
            | cons j rest =>
                obtain ⟨c'', hrun', hrest⟩ := restOf_cons_iff.mp hrest
                cases hrun.symm.trans hrun'
                exact ⟨rest, hrest, by simpa using hresult⟩
        next error c' hrun =>
          simp only [reduceCtorEq, false_and, false_iff, not_exists, not_and]
          intro instructions hrest
          cases instructions with
          | nil => exact absurd hrest hnil
          | cons j rest =>
              obtain ⟨c'', hrun', -⟩ := restOf_cons_iff.mp hrest
              cases hrun.symm.trans hrun'
      next hnone =>
        have hdone : c.remaining = 0 := by
          rw [hmore] at hnone
          omega
        simp [restOf_iff_of_done hdone]

theorem decode_eq_ok_iff_decodeFrom {code : Array UInt8} :
    decode code = .ok instructions ↔
      (decodeFrom (.start code)).failure = none ∧
        (decodeFrom (.start code)).instructions = instructions := by
  cases hfailure : (decodeFrom (.start code)).failure with
  | none => simp [decode, hfailure]
  | some error => simp [decode, hfailure]

theorem decode_eq_ok_iff_restOf {code : Array UInt8} :
    decode code = .ok instructions ↔ RestOf (.start code) instructions := by
  rw [decode_eq_ok_iff_decodeFrom, decodeFrom, decodeWith_iff (Nat.le_refl _)]
  simp only [List.reverse_nil, List.nil_append, exists_eq_right]

theorem decode_eq_ok_iff {code : Array UInt8} :
    decode code = .ok instructions ↔
      (∃ slots, Assembles 0 instructions slots ∧ Fills code.toList slots) ∧
        ∀ i ∈ instructions, i.offset < 2 ^ 32 ∧ i.size < 2 ^ 32 := by
  rw [decode_eq_ok_iff_restOf]
  exact ⟨fun hrest => ⟨hrest.fills, hrest.in_range⟩, fun hrest => ⟨hrest.1, hrest.2⟩⟩

/-- Code is decoded to instructions if and only if it is assembled from them.  The
instructions then cover the code, and code of the same instructions differs from it at
the positions only where any byte may stand. -/
theorem decode_inverts_assembling {code : Array UInt8} (hsize : code.size < 2 ^ 32)
    (instructions : List Instruction) :
    (decode code = .ok instructions ↔
      ∃ slots, Assembles 0 instructions slots ∧ Fills code.toList slots) ∧
    (decode code = .ok instructions →
      Tiles instructions code.size ∧
      ∀ other : Array UInt8, decode other = .ok instructions ↔
        other.size = code.size ∧ ∀ position, (∀ i ∈ instructions, ¬i.IsFree position) →
          other[position]? = code[position]?) := by
  have hrange {slots : List Slot} (hall : Assembles 0 instructions slots)
      (hlength : slots.length = code.size) :
      ∀ i ∈ instructions, i.offset < 2 ^ 32 ∧ i.size < 2 ^ 32 := by
    intro i hi
    have hle := hall.nextOffset_le hi
    rw [Instruction.nextOffset] at hle
    omega
  have hdecode : decode code = .ok instructions ↔
      ∃ slots, Assembles 0 instructions slots ∧ Fills code.toList slots := by
    rw [decode_eq_ok_iff]
    -- In code of this size no offset leaves its range.
    apply and_iff_left_of_imp
    rintro ⟨slots, hall, hfills⟩
    exact hrange hall (by simpa using hfills.length_eq.symm)
  refine ⟨hdecode, fun hok => ?_⟩
  obtain ⟨slots, hall, hfills⟩ := hdecode.mp hok
  have hlength : slots.length = code.size := by simpa using hfills.length_eq.symm
  refine ⟨hlength ▸ hall.tiles (by omega), fun other => ?_⟩
  have hother : decode other = .ok instructions ↔ Fills other.toList slots := by
    rw [decode_eq_ok_iff]
    constructor
    · rintro ⟨⟨slots', hall', hfills'⟩, -⟩
      rwa [hall.slots_eq hall']
    · intro hfills'
      exact ⟨⟨slots, hall, hfills'⟩, hrange hall hlength⟩
  rw [hother, hfills.fills_iff]
  have hfree (position : Nat) : slots[position]? ≠ some none ↔
      ∀ i ∈ instructions, ¬i.IsFree position := by
    rw [Ne, hall.getElem?_eq_none_iff]
    simp
  simp only [hfree, Array.length_toList, Array.getElem?_toList]

/-- A wide increment, a jump table and two calls, with bytes other than zero wherever
any byte may stand. -/
def sparseCode : Array UInt8 :=
  #[0xC4, 0x84, 0x01, 0x02, 0xFF, 0xFE,
    0xAA, 0x99, 0x00, 0x00, 0x00, 0x09, 0x00, 0x00, 0x00, 0x01, 0x00, 0x00, 0x00, 0x01,
    0xFF, 0xFF, 0xFF, 0xFA,
    0xB9, 0x00, 0x05, 0x01, 0x77,
    0xBA, 0x00, 0x06, 0x55, 0x66]

def sparseInstructions : List Instruction :=
  [⟨0, 6, 0x84, ⟨"iinc", .increment, .arithmetic, .sequential⟩, true,
      .increment 0x0102 (-2), []⟩,
    ⟨6, 18, 0xAA, ⟨"tableswitch", .tableSwitch, .controlFlow, .switch⟩, false,
      .tableSwitch 9 1 1 [-6], [15, 0]⟩,
    ⟨24, 5, 0xB9, ⟨"invokeinterface", .invokeInterface, .call, .call⟩, false,
      .invokeInterface 5 1, []⟩,
    ⟨29, 5, 0xBA, ⟨"invokedynamic", .invokeDynamic, .call, .call⟩, false, .constant 6, []⟩]

theorem sparseCode_assembled :
    sparseCode.size < 2 ^ 32 ∧ decode sparseCode = .ok sparseInstructions ∧
      (∃ slots, Assembles 0 sparseInstructions slots ∧ Fills sparseCode.toList slots) ∧
      Tiles sparseInstructions sparseCode.size ∧
      decode (sparseCode.setIfInBounds 7 0) = .ok sparseInstructions := by
  have hsize : sparseCode.size < 2 ^ 32 := by decide
  have hdecode : decode sparseCode = .ok sparseInstructions := by
    apply except_toOption_eq_some.mp
    decide +kernel
  obtain ⟨hassembles, hcovers⟩ := decode_inverts_assembling hsize sparseInstructions
  obtain ⟨htiles, hothers⟩ := hcovers hdecode
  refine ⟨hsize, hdecode, hassembles.mp hdecode, htiles, (hothers _).mpr ⟨rfl, ?_⟩⟩
  intro position hcertain
  have hposition : 7 ≠ position := by
    rintro rfl
    apply hcertain _ (List.mem_cons_of_mem _ (List.mem_cons_self ..))
    simp [Instruction.IsFree, Layout.IsFree]
  exact Array.getElem?_setIfInBounds_ne hposition

end Forwarding.Bytecode
