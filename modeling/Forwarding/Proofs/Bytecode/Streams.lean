import Forwarding.Proofs.Bytecode.Decoding

/-!
# Instructions one after the other

Decoding goes from a cursor to another one and depends on nothing but where it begins and
on the bytes between the two.
-/

namespace Forwarding.Bytecode

open Reader

variable {c c' c'' : Cursor} {i : Instruction} {instructions first second : List Instruction}

/-- Whether instructions are decoded one after the other on the way from one cursor to
another. -/
inductive Decodes : Cursor → List Instruction → Cursor → Prop
  | nil (c : Cursor) : Decodes c [] c
  | cons {c c' c'' : Cursor} {i : Instruction} {rest : List Instruction}
      (hrun : readInstruction.run c = (.ok i, c')) (hrest : Decodes c' rest c'') :
      Decodes c (i :: rest) c''

theorem decodes_nil_iff : Decodes c [] c' ↔ c' = c := by
  constructor
  · rintro ⟨⟩
    rfl
  · rintro rfl
    exact .nil c'

theorem decodes_cons_iff :
    Decodes c (i :: instructions) c'' ↔
      ∃ c', readInstruction.run c = (.ok i, c') ∧ Decodes c' instructions c'' := by
  constructor
  · intro hdecodes
    cases hdecodes with
    | cons hrun hrest => exact ⟨_, hrun, hrest⟩
  · rintro ⟨c', hrun, hrest⟩
    exact .cons hrun hrest

theorem Decodes.exists_of_append (hdecodes : Decodes c (first ++ second) c'') :
    ∃ c', Decodes c first c' ∧ Decodes c' second c'' := by
  induction first generalizing c with
  | nil => exact ⟨c, .nil c, hdecodes⟩
  | cons i rest ih =>
      obtain ⟨c₁, hrun, hrest⟩ := decodes_cons_iff.mp hdecodes
      obtain ⟨c', hfirst, hsecond⟩ := ih hrest
      exact ⟨c', .cons hrun hfirst, hsecond⟩

/-- Every instruction takes up a byte. -/
theorem Decodes.length_add_remaining_le (hdecodes : Decodes c instructions c') :
    instructions.length + c'.remaining ≤ c.remaining := by
  induction hdecodes with
  | nil c => simp
  | cons hrun _ ih =>
      have hless := remaining_lt_of_readInstruction hrun
      rw [List.length_cons]
      omega

/-- The same bytes in the same place are decoded to the same instructions, whatever follows
them. -/
theorem Decodes.exists_bytes (hdecodes : Decodes c instructions c') :
    ∃ bytes, c.Passes bytes c' ∧ ∀ (e : Cursor) (rest : List UInt8),
      e.position = c.position → e.rest = bytes ++ rest →
      ∃ e', Decodes e instructions e' ∧ e.Passes bytes e' := by
  induction hdecodes with
  | nil c =>
      refine ⟨[], Cursor.passes_nil_iff.mpr rfl, fun e rest _ _ => ?_⟩
      exact ⟨e, .nil e, Cursor.passes_nil_iff.mpr rfl⟩
  | @cons c c₁ c' i others hrun _ ih =>
      obtain ⟨front, hfront, hreads⟩ := run_eq_ok_iff.mp hrun
      obtain ⟨back, hback, hothers⟩ := ih
      refine ⟨front ++ back, hfront.trans hback, fun e rest hposition hrest => ?_⟩
      rw [List.append_assoc] at hrest
      rw [← hposition] at hreads
      obtain ⟨e₁, hrun₁, hpasses₁, hrest₁⟩ := hreads.run_eq hrest
      have hposition₁ : e₁.position = c₁.position := by
        rw [hpasses₁.position, hfront.position, hposition]
      obtain ⟨e', hdecodes', hpasses'⟩ := hothers e₁ rest hposition₁ hrest₁
      exact ⟨e', .cons hrun₁ hdecodes', hpasses₁.trans hpasses'⟩

theorem restOf_iff_decodes :
    RestOf c instructions ↔ ∃ c', Decodes c instructions c' ∧ c'.remaining = 0 := by
  induction instructions generalizing c with
  | nil =>
      simp only [decodes_nil_iff, exists_eq_left]
      by_cases hdone : c.remaining = 0
      · simp [restOf_iff_of_done hdone, hdone]
      · exact iff_of_false (not_restOf_nil (Nat.pos_of_ne_zero hdone)) hdone
  | cons i rest ih =>
      simp only [restOf_cons_iff, decodes_cons_iff, ih]
      constructor
      · rintro ⟨c₁, hrun, c', hrest, hdone⟩
        exact ⟨c', ⟨c₁, hrun, hrest⟩, hdone⟩
      · rintro ⟨c', ⟨c₁, hrun, hrest⟩, hdone⟩
        exact ⟨c₁, hrun, c', hrest, hdone⟩

theorem decode_eq_ok_iff_decodes {code : Array UInt8} :
    decode code = .ok instructions ↔
      ∃ c', Decodes (.start code) instructions c' ∧ c'.remaining = 0 :=
  decode_eq_ok_iff_restOf.trans restOf_iff_decodes

/-- Instructions are the first of some code if they are all the instructions of bytes with
which it begins. -/
theorem exists_decodes_start_iff {code : List UInt8} :
    (∃ c', Decodes (.start code.toArray) instructions c') ↔
      ∃ front rest, code = front ++ rest ∧ decode front.toArray = .ok instructions := by
  constructor
  · rintro ⟨c', hdecodes⟩
    -- The bytes that were decoded are all the code there is when they stand alone.
    obtain ⟨front, hpasses, hmoved⟩ := hdecodes.exists_bytes
    obtain ⟨e', hfront, hend⟩ := hmoved (.start front.toArray) [] rfl (by simp)
    have hrest : front = front ++ e'.rest := hend.rest
    have hdone : e'.remaining = 0 := by
      rw [← e'.length_rest, List.self_eq_append_right.mp hrest, List.length_nil]
    exact ⟨front, c'.rest, hpasses.rest, decode_eq_ok_iff_decodes.mpr ⟨e', hfront, hdone⟩⟩
  · rintro ⟨front, rest, rfl, hdecode⟩
    obtain ⟨c', hdecodes, hdone⟩ := decode_eq_ok_iff_decodes.mp hdecode
    obtain ⟨bytes, hpasses, hmoved⟩ := hdecodes.exists_bytes
    rw [← c'.length_rest, List.length_eq_zero_iff] at hdone
    have hbytes : front = bytes := by simpa [hdone] using hpasses.rest
    obtain ⟨e', hfront, -⟩ := hmoved (.start (front ++ rest).toArray) rest rfl (by simp [hbytes])
    exact ⟨e', hfront⟩

/-! ## Calls -/

theorem layout_of_mem_callOpcodes {opcode : UInt8} {info : OpcodeInfo}
    (hinfo : opcodeInfo? opcode = some info) (hcall : opcode ∈ callOpcodes) :
    info.layout = .constant16 ∨ info.layout = .invokeInterface := by
  have htable : ∀ called ∈ callOpcodes, ∀ row ∈ opcodeInfo? called,
      row.layout = .constant16 ∨ row.layout = .invokeInterface := by
    decide +kernel
  exact htable opcode hcall info hinfo

/-- A method call names its callee. -/
theorem exists_constantIndex (hrun : readInstruction.run c = (.ok i, c'))
    (hcall : i.isMethodCall = true) : ∃ index, i.operand.constantIndex? = some index := by
  obtain ⟨bytes, -, hreads⟩ := run_eq_ok_iff.mp hrun
  obtain ⟨-, -, -, slots, hassembled, -⟩ := reads_readInstruction_iff.mp hreads
  obtain ⟨operandSlots, hwritten, -⟩ := hassembled.written
  have hopcode : i.opcode ∈ callOpcodes := by simpa [Instruction.isMethodCall] using hcall
  generalize i.operand = operand at hwritten ⊢
  generalize i.wide = wide at hwritten
  cases layout_of_mem_callOpcodes hassembled.assigned hopcode with
  | inl hlayout =>
      rw [hlayout] at hwritten
      cases hwritten with
      | constant16 index => exact ⟨index, rfl⟩
  | inr hlayout =>
      rw [hlayout] at hwritten
      cases hwritten with
      | invokeInterface index count => exact ⟨index, rfl⟩

theorem Decodes.exists_constantIndex (hdecodes : Decodes c (first ++ [i]) c')
    (hcall : i.isMethodCall = true) : ∃ index, i.operand.constantIndex? = some index := by
  obtain ⟨_, _, hlast⟩ := hdecodes.exists_of_append
  obtain ⟨_, hrun, -⟩ := decodes_cons_iff.mp hlast
  exact Bytecode.exists_constantIndex hrun hcall

end Forwarding.Bytecode
