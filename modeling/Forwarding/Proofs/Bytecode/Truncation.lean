import Forwarding.Proofs.Bytecode.Streams
import Forwarding.Proofs.Bytes.Truncation

/-!
# Code that is cut short

The first part of some code is decoded to the instructions that lie in it, if it ends where
an instruction does.  If it ends inside an instruction, decoding runs out of bytes there.
-/

namespace Forwarding.Bytecode

open Reader

variable {c c' c'' e : Cursor} {i : Instruction} {instructions : List Instruction}
  {error : Error} {k fuel : Nat}

/-- Whether a position is that of an instruction or the end of the code. -/
def IsBoundary (code : Array UInt8) (instructions : List Instruction) (position : Nat) : Prop :=
  position = code.size ∨ ∃ i ∈ instructions, i.offset = position

/-- Whether a position is behind the first byte of an instruction and in front of its end. -/
def IsInside (instructions : List Instruction) (position : Nat) : Prop :=
  ∃ i ∈ instructions, i.offset < position ∧ position < i.nextOffset

/-! ## Where instructions lie -/

theorem position_of_readInstruction (hrun : readInstruction.run c = (.ok i, c')) :
    i.offset = c.position ∧ i.nextOffset = c'.position ∧ c.position < c'.position := by
  obtain ⟨bytes, hpasses, hreads⟩ := run_eq_ok_iff.mp hrun
  obtain ⟨hoffset, -, -, slots, hi, hfills⟩ := reads_readInstruction_iff.mp hreads
  have hend := hpasses.position
  have hpos := hi.size_pos
  have hsize : i.size = bytes.length := by rw [hi.size, hfills.length_eq]
  rw [Instruction.nextOffset]
  omega

theorem Decodes.position_le (hdecodes : Decodes c instructions c') :
    c.position ≤ c'.position := by
  induction hdecodes with
  | nil c => exact Nat.le_refl _
  | cons hrun _ ih =>
      have hnext := (position_of_readInstruction hrun).2.2
      omega

theorem Decodes.within (hdecodes : Decodes c instructions c') (hi : i ∈ instructions) :
    c.position ≤ i.offset ∧ i.offset < i.nextOffset ∧ i.nextOffset ≤ c'.position := by
  induction hdecodes with
  | nil c => simp at hi
  | cons hrun hrest ih =>
      have hhead := position_of_readInstruction hrun
      have hend := hrest.position_le
      rcases List.mem_cons.mp hi with rfl | hi
      · omega
      · have hothers := ih hi
        omega

/-- The instructions that end at a position or in front of it come first, and only the one
behind them can begin in front of the position. -/
theorem Decodes.exists_split (hdecodes : Decodes c instructions c') (hstart : c.position ≤ k)
    (hend : k ≤ c'.position) :
    ∃ first second c₁, instructions = first ++ second ∧ Decodes c first c₁ ∧
      Decodes c₁ second c' ∧ c₁.position ≤ k ∧ ∀ i ∈ second, k < i.nextOffset := by
  induction hdecodes with
  | nil c => exact ⟨[], [], c, rfl, .nil c, .nil c, hstart, by simp⟩
  | @cons c c₁ c' i rest hrun hrest ih =>
      have hhead := position_of_readInstruction hrun
      by_cases hwithin : c₁.position ≤ k
      · obtain ⟨first, second, c₂, rfl, hfirst, hsecond, hbefore, hbehind⟩ := ih hwithin hend
        exact ⟨i :: first, second, c₂, rfl, .cons hrun hfirst, hsecond, hbefore, hbehind⟩
      · refine ⟨[], i :: rest, c, rfl, .nil c, .cons hrun hrest, hstart, fun j hj => ?_⟩
        rcases List.mem_cons.mp hj with rfl | hj
        · omega
        · have hothers := hrest.within hj
          omega

/-- A position in decoded code is inside an instruction, at one or at the end. -/
theorem Decodes.isInside_iff (hdecodes : Decodes c instructions c') (hstart : c.position ≤ k)
    (hend : k ≤ c'.position) :
    IsInside instructions k ↔ ¬(k = c'.position ∨ ∃ i ∈ instructions, i.offset = k) := by
  induction hdecodes with
  | nil c => simpa [IsInside] using Nat.le_antisymm hend hstart
  | @cons c c₁ c' i rest hrun hrest ih =>
      have hhead := position_of_readInstruction hrun
      have hlast := hrest.position_le
      have hsplit : IsInside (i :: rest) k ↔
          i.offset < k ∧ k < i.nextOffset ∨ IsInside rest k := by
        simp [IsInside]
      rw [hsplit]
      by_cases hwithin : c₁.position ≤ k
      · have houtside : ¬(i.offset < k ∧ k < i.nextOffset) := by omega
        have hpast : i.offset ≠ k := by omega
        simp [ih hwithin hend, houtside, hpast]
      · have hothers : ∀ j ∈ rest, k < j.offset := by
          intro j hj
          have hj := hrest.within hj
          omega
        have hnone : ¬IsInside rest k := by
          rintro ⟨j, hj, hbehind, -⟩
          have hfront := hothers j hj
          omega
        have hno_offset : ¬∃ j ∈ rest, j.offset = k := by
          rintro ⟨j, hj, rfl⟩
          exact Nat.lt_irrefl _ (hothers j hj)
        simp only [hnone, or_false, List.exists_mem_cons_iff, hno_offset]
        omega

theorem Decodes.filter_eq {first second : List Instruction} (hfirst : Decodes c first c')
    (hbefore : c'.position ≤ k) (hbehind : ∀ i ∈ second, k < i.nextOffset) :
    (first ++ second).filter (·.nextOffset ≤ k) = first := by
  have hkept : ∀ i ∈ first, decide (i.nextOffset ≤ k) = true := by
    intro i hi
    have hend := (hfirst.within hi).2.2
    simp only [decide_eq_true_eq]
    omega
  have hdropped : ∀ i ∈ second, ¬decide (i.nextOffset ≤ k) = true := by
    intro i hi
    have hlater := hbehind i hi
    simp only [decide_eq_true_eq]
    omega
  rw [List.filter_append, List.filter_eq_self.mpr hkept, List.filter_eq_nil_iff.mpr hdropped,
    List.append_nil]

/-! ## Decoding that fails -/

theorem decodeWith_of_decodes {backwards : List Instruction}
    (hdecodes : Decodes c instructions c') :
    decodeWith (instructions.length + fuel) c backwards =
      decodeWith fuel c' (instructions.reverse ++ backwards) := by
  induction hdecodes generalizing backwards with
  | nil c => simp
  | @cons c c₁ c' i rest hrun _ ih =>
      have hmore : c.hasMore = true := by
        have hless := remaining_lt_of_readInstruction hrun
        simp only [Cursor.remaining, Cursor.hasMore, decide_eq_true_eq] at hless ⊢
        omega
      rw [List.length_cons, Nat.add_right_comm, decodeWith, if_pos hmore, hrun]
      simp [ih]

theorem decode_of_failing {code : Array UInt8} (hdecodes : Decodes (.start code) instructions c)
    (hmore : 0 < c.remaining) (hrun : readInstruction.run c = (.error error, c')) :
    decode code = .error error := by
  have hfuel := hdecodes.length_add_remaining_le
  obtain ⟨fuel, hfuel⟩ : ∃ fuel, (Cursor.start code).remaining =
      instructions.length + (fuel + 1) :=
    ⟨(Cursor.start code).remaining - instructions.length - 1, by omega⟩
  have hsome : c.hasMore = true := by
    simp only [Cursor.remaining, Cursor.hasMore, decide_eq_true_eq] at hmore ⊢
    omega
  have hfrom : (decodeFrom (.start code)).failure = some error := by
    rw [decodeFrom, hfuel, decodeWith_of_decodes hdecodes, decodeWith, if_pos hsome, hrun]
  rw [decode, hfrom]

/-! ## Code up to a limit -/

theorem Decodes.exists_of_isCut (hdecodes : Decodes c instructions c') (hcut : e.IsCut k c)
    (hwithin : c'.position ≤ k) : ∃ e', Decodes e instructions e' ∧ e'.IsCut k c' := by
  induction hdecodes generalizing e with
  | nil c => exact ⟨e, .nil e, hcut⟩
  | cons hrun hrest ih =>
      have hfirst := hrest.position_le
      obtain ⟨e₁, hrun₁, hcut₁⟩ := run_within hcut hrun (by omega)
      obtain ⟨e', hrest', hcut'⟩ := ih hcut₁ hwithin
      exact ⟨e', .cons hrun₁ hrest', hcut'⟩

theorem exists_decodes_of_decode {code : Array UInt8} (hdecode : decode code = .ok instructions) :
    ∃ c', Decodes (.start code) instructions c' ∧ c'.position = code.size := by
  obtain ⟨c', hdecodes, hdone⟩ := decode_eq_ok_iff_decodes.mp hdecode
  obtain ⟨bytes, hpasses, -⟩ := hdecodes.exists_bytes
  have hdata : c'.data = code := hpasses.data
  have hle := c'.position_le
  rw [Cursor.remaining, hdata] at hdone
  rw [hdata] at hle
  exact ⟨c', hdecodes, by omega⟩

/-- Code that is cut inside an instruction is too short for it, and code that is cut elsewhere
is decoded to the instructions in front. -/
theorem decode_extract {code : Array UInt8} (hdecode : decode code = .ok instructions)
    (hk : k ≤ code.size) :
    (IsInside instructions k ↔ ¬IsBoundary code instructions k) ∧
      (IsInside instructions k ∧ decode (code.extract 0 k) = .error .outOfBounds ∨
        ¬IsInside instructions k ∧
          decode (code.extract 0 k) = .ok (instructions.filter (·.nextOffset ≤ k))) := by
  obtain ⟨c', hdecodes, hsize⟩ := exists_decodes_of_decode hdecode
  have hend : k ≤ c'.position := by omega
  have hboundary := hdecodes.isInside_iff (Nat.zero_le k) hend
  rw [hsize] at hboundary
  refine ⟨hboundary, ?_⟩
  obtain ⟨first, second, c₁, rfl, hfirst, hsecond, hbefore, hbehind⟩ :=
    hdecodes.exists_split (Nat.zero_le k) hend
  rw [hfirst.filter_eq hbefore hbehind]
  obtain ⟨e₁, hfront, hcut⟩ := hfirst.exists_of_isCut (Cursor.isCut_start hk) hbefore
  have hremaining := hcut.remaining_eq
  rcases Nat.eq_or_lt_of_le hbefore with hexact | hshort
  · -- The cut is where the first instructions end.
    refine Or.inr ⟨?_, decode_eq_ok_iff_decodes.mpr ⟨e₁, hfront, by omega⟩⟩
    rintro ⟨i, hi, hstart, hend⟩
    rcases List.mem_append.mp hi with hi | hi
    · have hwithin := hfirst.within hi
      omega
    · have hwithin := hsecond.within hi
      omega
  · cases hsecond with
    | nil => omega
    | @cons _ c₂ _ i rest hrun hrest =>
        have hhead := position_of_readInstruction hrun
        have hlater := hbehind i (by simp)
        obtain ⟨e', hcut_off⟩ := run_beyond hcut hrun (by omega)
        have hinside : IsInside (first ++ i :: rest) k := ⟨i, by simp, by omega, hlater⟩
        exact Or.inl ⟨hinside, decode_of_failing hfront (by omega) hcut_off⟩

/-- Code that can be decoded can be cut anywhere: at the boundaries between instructions those
in front are left, and inside an instruction bytes are missing.  Whatever the bytes, an
instruction that cannot be decoded is given up between its beginning and their end. -/
theorem decode_truncated :
    (∀ (code : Array UInt8) (instructions : List Instruction),
      decode code = .ok instructions → ∀ k ≤ code.size,
        (IsBoundary code instructions k →
          decode (code.extract 0 k) = .ok (instructions.filter (·.nextOffset ≤ k))) ∧
        (IsInside instructions k → decode (code.extract 0 k) = .error .outOfBounds) ∧
        (IsInside instructions k ↔ ¬IsBoundary code instructions k)) ∧
    ∀ (c c' : Cursor) (error : Error), readInstruction.run c = (.error error, c') →
      c'.data = c.data ∧ c.position ≤ c'.position ∧ c'.position ≤ c.data.size := by
  constructor
  · intro code instructions hdecode k hk
    obtain ⟨hboundary, hcut⟩ := decode_extract hdecode hk
    rcases hcut with ⟨hinside, hshort⟩ | ⟨houtside, hok⟩
    · have hbetween := hboundary.mp hinside
      exact ⟨fun hat => absurd hat hbetween, fun _ => hshort, hboundary⟩
    · exact ⟨fun _ => hok, fun hinside => absurd hinside houtside, hboundary⟩
  · intro c c' error hrun
    have hforward := run_forward readInstruction c
    rw [hrun] at hforward
    have hle := c'.position_le
    rw [hforward.1] at hle
    exact ⟨hforward.1, hforward.2, hle⟩

/-- The jump table at 6 ends at 24, and its padding at 8. -/
theorem decode_truncated_sparse :
    decode sparseCode = .ok sparseInstructions ∧
      decode (sparseCode.extract 0 24) = .ok (sparseInstructions.take 2) ∧
      (∀ k, 6 < k → k < 24 → decode (sparseCode.extract 0 k) = .error .outOfBounds) ∧
      ∃ stop, readInstruction.run (.start #[0xC4, 0x00]) =
          (.error (.malformed (.wideUnsupported "nop" 0)), stop) ∧
        0 ≤ stop.position ∧ stop.position ≤ 2 := by
  have hdecode : decode sparseCode = .ok sparseInstructions := by
    apply except_toOption_eq_some.mp
    decide +kernel
  have hsize : sparseCode.size = 34 := rfl
  have hcuts := decode_truncated.1 sparseCode sparseInstructions hdecode
  refine ⟨hdecode, ?_, fun k hbehind hbefore => ?_, ?_⟩
  · have hcall := (hcuts 24 (by omega)).1 (Or.inr ⟨_, List.getElem_mem (n := 2) (by decide), rfl⟩)
    exact hcall
  · exact (hcuts k (by omega)).2.1 ⟨_, List.getElem_mem (n := 1) (by decide), hbehind, hbefore⟩
  · have hfails : (readInstruction.run (.start #[0xC4, 0x00])).1 =
        .error (.malformed (.wideUnsupported "nop" 0)) := by decide +kernel
    rcases hrun : readInstruction.run (.start #[0xC4, 0x00]) with ⟨result, stop⟩
    rw [hrun] at hfails
    subst hfails
    have hstop := decode_truncated.2 _ _ _ hrun
    exact ⟨stop, rfl, hstop.2⟩

end Forwarding.Bytecode
