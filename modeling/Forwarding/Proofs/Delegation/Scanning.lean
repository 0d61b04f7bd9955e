import Forwarding.Proofs.Bytecode.Streams
import Forwarding.Proofs.ClassFile.References
import Forwarding.Proofs.Delegation

/-!
# How far a scan goes

A scan passes over the instructions in front of the first method call and ends with that
call.  What it gives then depends only on what the call refers to.
-/

namespace Forwarding.Delegation

open ClassFile Bytecode

variable {pool : ConstantPool} {stub : MethodEntry} {body : CodeAttribute} {c c' : Cursor}
  {i call : Instruction} {before instructions : List Instruction} {index : UInt16} {fuel : Nat}

/-! ## What a call gives -/

/-- The delegation that a call at an offset makes to a member. -/
def toMember (callee : ConstantPool.MemberRef) (offset : Nat) : Delegation where
  owner := callee.owner
  name := callee.name
  descriptor := callee.descriptor
  interface := callee.kind = .interfaceMethod
  offset := offset

theorem ofCall_of_refers {callee : ConstantPool.MemberRef} (hrefers : pool.Refers index callee)
    (hkind : callee.kind ≠ .field) :
    ofCall pool stub call index = .ok (toMember callee call.offset) := by
  rw [ofCall, ConstantPool.memberRef_eq_ok_iff.mpr hrefers]
  exact if_neg hkind

theorem ofCall_of_field {callee : ConstantPool.MemberRef} (hrefers : pool.Refers index callee)
    (hkind : callee.kind = .field) :
    ofCall pool stub call index = .error (.malformed (.callsField call.info.mnemonic call.offset
      stub.name stub.descriptor callee.name)) := by
  rw [ofCall, ConstantPool.memberRef_eq_ok_iff.mpr hrefers]
  exact if_pos hkind

theorem ofCall_eq_ok_iff {d : Delegation} :
    ofCall pool stub call index = .ok d ↔
      ∃ callee, pool.Refers index callee ∧ callee.kind ≠ .field ∧
        d = toMember callee call.offset := by
  constructor
  · intro hok
    cases hcallee : pool.memberRef index with
    | error cause =>
        rw [ofCall, hcallee] at hok
        cases hok
    | ok callee =>
        have hrefers := ConstantPool.memberRef_eq_ok_iff.mp hcallee
        by_cases hkind : callee.kind = .field
        · cases (ofCall_of_field hrefers hkind).symm.trans hok
        · cases (ofCall_of_refers hrefers hkind).symm.trans hok
          exact ⟨callee, hrefers, hkind, rfl⟩
  · rintro ⟨callee, hrefers, hkind, rfl⟩
    exact ofCall_of_refers hrefers hkind

/-- A call fails only as malformed. -/
theorem ofCall_cases (pool : ConstantPool) (stub : MethodEntry) (call : Instruction)
    (index : UInt16) :
    (∃ d, ofCall pool stub call index = .ok d) ∨
      ∃ cause, ofCall pool stub call index = .error (.malformed cause) := by
  cases hcallee : pool.memberRef index with
  | error cause =>
      rw [ofCall, hcallee]
      exact Or.inr ⟨cause, rfl⟩
  | ok callee =>
      have hrefers := ConstantPool.memberRef_eq_ok_iff.mp hcallee
      by_cases hkind : callee.kind = .field
      · exact Or.inr ⟨_, ofCall_of_field hrefers hkind⟩
      · exact Or.inl ⟨_, ofCall_of_refers hrefers hkind⟩

/-! ## Up to the first call -/

theorem hasMore_of_readInstruction (hrun : readInstruction.run c = (.ok i, c')) :
    c.hasMore = true := by
  have hless := remaining_lt_of_readInstruction hrun
  simp only [Cursor.remaining, Cursor.hasMore, decide_eq_true_eq] at hless ⊢
  omega

/-- A scan passes over instructions that are no method calls. -/
theorem scanWith_of_decodes (hdecodes : Decodes c before c')
    (hbefore : ∀ i ∈ before, i.isMethodCall = false) :
    scanWith pool stub (before.length + fuel) c = scanWith pool stub fuel c' := by
  induction hdecodes with
  | nil c => rw [List.length_nil, Nat.zero_add]
  | @cons c c₁ c' i rest hrun _ ih =>
      rw [List.forall_mem_cons] at hbefore
      have hsilent : calledIndex? i = none := by
        rw [calledIndex?, hbefore.1]
        rfl
      rw [List.length_cons, Nat.add_right_comm, scanWith,
        if_pos (hasMore_of_readInstruction hrun), hrun]
      simp only [hsilent]
      exact ih hbefore.2

theorem scanWith_of_call (hrun : readInstruction.run c = (.ok call, c'))
    (hindex : calledIndex? call = some index) :
    scanWith pool stub (fuel + 1) c = ofCall pool stub call index := by
  rw [scanWith, if_pos (hasMore_of_readInstruction hrun), hrun]
  simp only [hindex]

theorem scanWith_of_done (hdone : c.remaining = 0) :
    scanWith pool stub fuel c = .error (.noDelegation stub.name) := by
  have hmore : ¬c.hasMore = true := by
    simp only [Cursor.remaining, Cursor.hasMore, decide_eq_true_eq] at hdone ⊢
    omega
  cases fuel with
  | zero => rfl
  | succ fuel => rw [scanWith, if_neg hmore]

theorem scan_eq_scanWith (hcode : stub.code = some body)
    (hdecodes : Decodes (.start body.code.toArray) instructions c') :
    ∃ fuel, scan pool stub =
      scanWith pool stub (instructions.length + (c'.remaining + fuel))
        (.start body.code.toArray) := by
  have hlength := hdecodes.length_add_remaining_le
  have hsize : (Cursor.start body.code.toArray).remaining = body.code.toArray.size := rfl
  refine ⟨body.code.toArray.size - (instructions.length + c'.remaining), ?_⟩
  rw [scan, hcode]
  dsimp only
  congr 1
  omega

theorem scan_of_silent (hcode : stub.code = some body)
    (hdecodes : Decodes (.start body.code.toArray) instructions c') (hdone : c'.remaining = 0)
    (hsilent : ∀ i ∈ instructions, i.isMethodCall = false) :
    scan pool stub = .error (.noDelegation stub.name) := by
  obtain ⟨fuel, hscan⟩ := scan_eq_scanWith hcode hdecodes
  rw [hscan, scanWith_of_decodes hdecodes hsilent, scanWith_of_done hdone]

theorem scan_of_call (hcode : stub.code = some body)
    (hdecodes : Decodes (.start body.code.toArray) (before ++ [call]) c')
    (hbefore : ∀ i ∈ before, i.isMethodCall = false) (hcall : call.isMethodCall = true)
    (hindex : call.operand.constantIndex? = some index) :
    scan pool stub = ofCall pool stub call index := by
  obtain ⟨c₁, hfirst, hlast⟩ := hdecodes.exists_of_append
  obtain ⟨_, hrun, -⟩ := decodes_cons_iff.mp hlast
  obtain ⟨fuel, hscan⟩ := scan_eq_scanWith hcode hfirst
  have hremaining := remaining_lt_of_readInstruction hrun
  obtain ⟨more, hmore⟩ : ∃ more, c₁.remaining + fuel = more + 1 :=
    ⟨c₁.remaining + fuel - 1, by omega⟩
  have hcalled : calledIndex? call = some index := by
    rw [calledIndex?, if_pos hcall, hindex]
  rw [hscan, hmore, scanWith_of_decodes hfirst hbefore, scanWith_of_call hrun hcalled]

/-- A scan that succeeds has come to a call, and has passed over no other. -/
theorem exists_decodes_of_scanWith {d : Delegation} (hscan : scanWith pool stub fuel c = .ok d) :
    ∃ before call index c', Decodes c (before ++ [call]) c' ∧
      (∀ i ∈ before, i.isMethodCall = false) ∧ call.isMethodCall = true ∧
      call.operand.constantIndex? = some index ∧ ofCall pool stub call index = .ok d := by
  induction fuel generalizing c with
  | zero => cases hscan
  | succ fuel ih =>
      unfold scanWith at hscan
      split at hscan
      next =>
        split at hscan
        next => cases hscan
        next i c₁ hrun =>
          cases hcall : i.isMethodCall with
          | true =>
              obtain ⟨index, hindex⟩ := exists_constantIndex hrun hcall
              have hcalled : calledIndex? i = some index := by
                rw [calledIndex?, if_pos hcall, hindex]
              rw [hcalled] at hscan
              exact ⟨[], i, index, c₁, .cons hrun (.nil c₁), by simp, hcall, hindex, hscan⟩
          | false =>
              have hsilent : calledIndex? i = none := by
                rw [calledIndex?, hcall]
                rfl
              rw [hsilent] at hscan
              obtain ⟨before, call, index, c', hdecodes, hbefore, hfound⟩ := ih hscan
              refine ⟨i :: before, call, index, c', .cons hrun hdecodes, ?_, hfound⟩
              exact List.forall_mem_cons.mpr ⟨hcall, hbefore⟩
      next => cases hscan

/-! ## Behind the first call -/

/-- Whether code ends with its first method call. -/
def EndsInCall (code : List UInt8) : Prop :=
  ∃ before call, decode code.toArray = .ok (before ++ [call]) ∧
    (∀ i ∈ before, i.isMethodCall = false) ∧ call.isMethodCall = true

/-- A scan depends on nothing behind the first call. -/
theorem scan_of_endsInCall {called : List UInt8} (hends : EndsInCall called) :
    ∃ call index, ∀ (pool : ConstantPool) (stub : MethodEntry) (body : CodeAttribute)
      (skipped : List UInt8), stub.code = some body → body.code = called ++ skipped →
        scan pool stub = ofCall pool stub call index := by
  obtain ⟨before, call, hdecode, hbefore, hcall⟩ := hends
  obtain ⟨c', hdecodes, -⟩ := decode_eq_ok_iff_decodes.mp hdecode
  obtain ⟨index, hindex⟩ := hdecodes.exists_constantIndex hcall
  refine ⟨call, index, fun pool stub body skipped hcode hbody => ?_⟩
  obtain ⟨e', hfront⟩ := exists_decodes_start_iff.mpr ⟨called, skipped, hbody, hdecode⟩
  exact scan_of_call hcode hfront hbefore hcall hindex

/-- A scan that succeeds has come to the end of a call. -/
theorem exists_endsInCall {d : Delegation} (hcode : stub.code = some body)
    (hscan : scan pool stub = .ok d) :
    ∃ called skipped, body.code = called ++ skipped ∧ EndsInCall called := by
  rw [scan, hcode] at hscan
  obtain ⟨before, call, index, c', hdecodes, hbefore, hcall, -⟩ := exists_decodes_of_scanWith hscan
  obtain ⟨called, skipped, hbody, hdecode⟩ := exists_decodes_start_iff.mp ⟨c', hdecodes⟩
  exact ⟨called, skipped, hbody, before, call, hdecode, hbefore, hcall⟩

end Forwarding.Delegation
