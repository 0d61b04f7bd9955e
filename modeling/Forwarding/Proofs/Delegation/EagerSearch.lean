import Forwarding.Proofs.Delegation.Scanning

/-!
# Searching without laziness

A search reads the methods of a class up to the first stub that fits, and decodes the code of
that one up to the first call.  It finds what a search would find that reads all methods first
and then decodes all of the code.
-/

namespace Forwarding.Delegation

open ClassFile Bytecode

variable {bytes : Array UInt8} {file : ClassFile} {table : MethodTable} {name : String}
  {count : Nat} {pool : ConstantPool} {stub m : MethodEntry} {call : Instruction}
  {index : UInt16} {instructions : List Instruction}

/-! ## The first call of all instructions -/

/-- Whether all the code of a method is decoded, to these instructions. -/
def DecodesTo (m : MethodEntry) (instructions : List Instruction) : Prop :=
  ∃ body, m.code = some body ∧ decode body.code.toArray = .ok instructions

/-- Whether an answer is what the reference in a call at an offset asks for: a delegation to
the method that it leads to, or an error if it leads to a field or to no member at all. -/
structure AnswersCall (pool : ConstantPool) (index : UInt16) (offset : Nat)
    (answer : Except Error Delegation) : Prop where
  method : ∀ callee, pool.Refers index callee → callee.kind ≠ .field →
    answer = .ok (toMember callee offset)
  field : ∀ callee, pool.Refers index callee → callee.kind = .field →
    ∃ cause, answer = .error (.malformed cause)
  dangling : (∀ callee, ¬pool.Refers index callee) →
    ∃ cause, answer = .error (.malformed cause)

theorem answersCall_ofCall :
    AnswersCall pool index call.offset (ofCall pool stub call index) where
  method _ hrefers hkind := ofCall_of_refers hrefers hkind
  field _ hrefers hkind := ⟨_, ofCall_of_field hrefers hkind⟩
  dangling hnone := by
    cases ofCall_cases pool stub call index with
    | inr hfails => exact hfails
    | inl hfinds =>
        obtain ⟨d, hd⟩ := hfinds
        obtain ⟨callee, hrefers, -⟩ := ofCall_eq_ok_iff.mp hd
        exact absurd hrefers (hnone callee)

theorem scan_of_decodesTo (hdecodes : DecodesTo m instructions)
    (hsilent : ∀ i ∈ instructions, i.isMethodCall = false) :
    scan pool m = .error (.noDelegation m.name) := by
  obtain ⟨body, hcode, hdecode⟩ := hdecodes
  obtain ⟨c', hall, hdone⟩ := decode_eq_ok_iff_decodes.mp hdecode
  exact scan_of_silent hcode hall hdone hsilent

theorem scan_of_find? (hdecodes : DecodesTo m instructions)
    (hfirst : instructions.find? Instruction.isMethodCall = some call) :
    ∃ index, call.operand.constantIndex? = some index ∧
      scan pool m = ofCall pool m call index := by
  obtain ⟨body, hcode, hdecode⟩ := hdecodes
  obtain ⟨c', hall, -⟩ := decode_eq_ok_iff_decodes.mp hdecode
  obtain ⟨hcall, before, after, rfl, hbefore⟩ := List.find?_eq_some_iff_append.mp hfirst
  rw [List.append_cons] at hall
  obtain ⟨c₁, hfront, -⟩ := hall.exists_of_append
  obtain ⟨index, hindex⟩ := hfront.exists_constantIndex hcall
  refine ⟨index, hindex, scan_of_call hcode hfront (fun i hi => ?_) hcall hindex⟩
  simpa using hbefore i hi

/-! ## The first stub of all methods -/

theorem findStub_of_none_fits (hcount : Countable name table.methods)
    (hnone : ∀ m ∈ table.methods, ¬Fits name count m) (hwhole : table.failure = none) :
    findStub name count table.failure table.methods = .error (.stubNotFound name count) := by
  have hpassed := @findStub_append name count table.methods [] table.failure
    (hcount.isCandidate_eq hnone)
  rw [List.append_nil] at hpassed
  rw [hpassed, hwhole]
  rfl

/-- No scan tells that there is no stub. -/
theorem scan_ne_stubNotFound : scan pool stub ≠ .error (.stubNotFound name count) := by
  intro hscan
  cases (scanFailure_of_scan hscan).cause with
  | inl hcall => cases hcall
  | inr hunreadable => cases hunreadable

/-- If all methods can be read and the parameters of all stubs with the name can be counted,
then a search comes to no stub if and only if there is none, and otherwise it gives the first
call among all the instructions of the first stub. -/
theorem find_refines_eager (hfile : ClassFile.parse bytes = .ok file)
    (htable : file.methods = .ok table) (hwhole : table.failure = none)
    (hcount : Countable name table.methods) :
    (find bytes name count = .error (.stubNotFound name count) ↔
      ∀ m ∈ table.methods, ¬Fits name count m) ∧
    ∀ m, FirstFits name count table.methods m →
      (m.code = none → find bytes name count = .error (.noDelegation name)) ∧
      ∀ instructions, DecodesTo m instructions →
        ((∀ i ∈ instructions, i.isMethodCall = false) →
          find bytes name count = .error (.noDelegation name)) ∧
        ∀ call, instructions.find? Instruction.isMethodCall = some call →
          ∃ index, call.operand.constantIndex? = some index ∧
            AnswersCall file.pool index call.offset (find bytes name count) := by
  refine ⟨⟨fun hfind m hm hfits => ?_, fun hnone => ?_⟩, fun m hfirst => ?_⟩
  · obtain ⟨first, hfirst⟩ := exists_firstFits hm hfits
    rw [find_of_firstFits hfile htable hcount hfirst] at hfind
    exact scan_ne_stubNotFound hfind
  · rw [find_eq_findStub hfile htable, findStub_of_none_fits hcount hnone hwhole]
    rfl
  · have hname : m.name = name := by
      obtain ⟨_, _, _, hfits, _⟩ := hfirst
      exact hfits.name_eq
    rw [find_of_firstFits hfile htable hcount hfirst]
    refine ⟨fun hcode => by rw [scan, hcode, hname], fun instructions hdecodes => ?_⟩
    refine ⟨fun hsilent => by rw [scan_of_decodesTo hdecodes hsilent, hname], fun call hcall => ?_⟩
    obtain ⟨index, hindex, hscan⟩ := scan_of_find? hdecodes hcall
    rw [hscan]
    exact ⟨index, hindex, answersCall_ofCall⟩

/-! ## A stub with a switch -/

/-- The bytes in front of the stub of a class `S`, with a method `run` in them that is none. -/
def switchFront : List UInt8 := [
  0xCA, 0xFE, 0xBA, 0xBE, 0x00, 0x00, 0x00, 0x34, 0x00, 0x0D, 0x01, 0x00,
  0x01, 0x53, 0x07, 0x00, 0x01, 0x01, 0x00, 0x10, 0x6A, 0x61, 0x76, 0x61,
  0x2F, 0x6C, 0x61, 0x6E, 0x67, 0x2F, 0x4F, 0x62, 0x6A, 0x65, 0x63, 0x74,
  0x07, 0x00, 0x03, 0x01, 0x00, 0x03, 0x72, 0x75, 0x6E, 0x01, 0x00, 0x04,
  0x28, 0x49, 0x29, 0x56, 0x01, 0x00, 0x04, 0x43, 0x6F, 0x64, 0x65, 0x01,
  0x00, 0x01, 0x48, 0x07, 0x00, 0x08, 0x01, 0x00, 0x01, 0x68, 0x0C, 0x00,
  0x0A, 0x00, 0x06, 0x0B, 0x00, 0x09, 0x00, 0x0B, 0x00, 0x21, 0x00, 0x02,
  0x00, 0x04, 0x00, 0x00, 0x00, 0x00, 0x00, 0x02, 0x00, 0x01, 0x00, 0x05,
  0x00, 0x06, 0x00, 0x00]

/-- A stub `run` up to its code, with an attribute that is no code. -/
def switchHead : List UInt8 := [
  0x10, 0x41, 0x00, 0x05, 0x00, 0x06, 0x00, 0x02, 0x00, 0x0A, 0x00, 0x00,
  0x00, 0x01, 0xEE, 0x00, 0x07, 0x00, 0x00, 0x00, 0x2D, 0x00, 0x02, 0x00,
  0x02, 0x00, 0x00, 0x00, 0x21]

/-- Code up to its first call, which comes behind a switch and a dynamic call. -/
def switchCalled : List UInt8 := [
  0x1B, 0xAA, 0x99, 0x77, 0x00, 0x00, 0x00, 0x13, 0x00, 0x00, 0x00, 0x00,
  0x00, 0x00, 0x00, 0x00, 0x00, 0x00, 0x00, 0x13, 0xBA, 0x00, 0x0B, 0x00,
  0x00, 0x2A, 0x1B, 0xB9, 0x00, 0x0C, 0x02, 0x00]

def switchClass : Array UInt8 :=
  (switchFront ++ (switchHead ++ (switchCalled ++ [0xB1, 0, 0, 0, 0])) ++ [0, 0]).toArray

def switchStub : MethodEntry :=
  ⟨⟨0x1041⟩, "run", "(I)V", some ⟨2, 2, switchCalled ++ [0xB1]⟩⟩

def switchCallee : ConstantPool.MemberRef :=
  ⟨.interfaceMethod, "H", "h", "(I)V"⟩

theorem switchClass_parsed :
    ∃ file table, ClassFile.parse switchClass = .ok file ∧ file.methods = .ok table ∧
      table.failure = none ∧ table.methods = [⟨⟨1⟩, "run", "(I)V", none⟩, switchStub] ∧
      file.pool.memberRef 12 = .ok switchCallee := by
  have hcomputed :
      ((ClassFile.parse switchClass).toOption.bind fun file =>
        file.methods.toOption.map fun table =>
          (table.failure.isNone, table.methods, (file.pool.memberRef 12).toOption)) =
        some (true, [⟨⟨1⟩, "run", "(I)V", none⟩, switchStub], some switchCallee) := by
    decide +kernel
  obtain ⟨file, hfile, hcomputed⟩ := Option.bind_eq_some_iff.mp hcomputed
  obtain ⟨table, htable, hcomputed⟩ := Option.map_eq_some_iff.mp hcomputed
  simp only [Prod.mk.injEq, except_toOption_eq_some] at hfile htable hcomputed
  rw [Option.isNone_iff_eq_none] at hcomputed
  exact ⟨file, table, hfile, htable, hcomputed⟩

theorem switchStub_decoded :
    ∃ instructions call, DecodesTo switchStub instructions ∧
      instructions.find? Instruction.isMethodCall = some call ∧ call.offset = 27 ∧
      call.operand.constantIndex? = some 12 := by
  have hcomputed :
      ((decode (switchCalled ++ [0xB1]).toArray).toOption.bind fun instructions =>
        (instructions.find? Instruction.isMethodCall).map fun call =>
          (call.offset, call.operand.constantIndex?)) = some (27, some 12) := by
    decide +kernel
  obtain ⟨instructions, hdecode, hcomputed⟩ := Option.bind_eq_some_iff.mp hcomputed
  obtain ⟨call, hcall, hcomputed⟩ := Option.map_eq_some_iff.mp hcomputed
  rw [Prod.mk.injEq] at hcomputed
  rw [except_toOption_eq_some] at hdecode
  exact ⟨instructions, call, ⟨_, rfl, hdecode⟩, hcall, hcomputed⟩

theorem find_refines_eager_switch :
    ∃ file table, ClassFile.parse switchClass = .ok file ∧ file.methods = .ok table ∧
      table.failure = none ∧ Countable "run" table.methods ∧
      FirstFits "run" 1 table.methods switchStub ∧
      find switchClass "run" 1 = .ok (toMember switchCallee 27) ∧
      find switchClass "run" 2 = .error (.stubNotFound "run" 2) := by
  obtain ⟨file, table, hfile, htable, hwhole, hmethods, hcallee⟩ := switchClass_parsed
  obtain ⟨instructions, call, hdecodes, hcall, hoffset, hoperand⟩ := switchStub_decoded
  have hone : ∀ m ∈ table.methods, Descriptor.parameterCount m.descriptor = .ok 1 := by
    rw [hmethods, List.forall_mem_cons, List.forall_mem_singleton]
    exact ⟨by decide, by decide⟩
  have hcount : Countable "run" table.methods := fun m hm _ _ => ⟨1, hone m hm⟩
  have hfirst : FirstFits "run" 1 table.methods switchStub := by
    refine ⟨[⟨⟨1⟩, "run", "(I)V", none⟩], [], hmethods, ⟨by decide, rfl, by decide⟩, ?_⟩
    intro other hother hfits
    rw [List.mem_singleton.mp hother] at hfits
    exact absurd hfits.isStub (by decide)
  have hnone : ∀ m ∈ table.methods, ¬Fits "run" 2 m := by
    intro m hm hfits
    cases (hone m hm).symm.trans hfits.parameters
  obtain ⟨-, heach⟩ := @find_refines_eager _ _ _ _ 1 hfile htable hwhole hcount
  obtain ⟨-, hcode⟩ := heach switchStub hfirst
  obtain ⟨index, hindex, hanswer⟩ := (hcode instructions hdecodes).2 call hcall
  have hrefers : file.pool.Refers index switchCallee := by
    rw [hoperand, Option.some.injEq] at hindex
    rw [← hindex]
    exact ConstantPool.memberRef_eq_ok_iff.mp hcallee
  have hfind := hanswer.method switchCallee hrefers (by decide)
  rw [hoffset] at hfind
  refine ⟨file, table, hfile, htable, hwhole, hcount, hfirst, hfind, ?_⟩
  exact (find_refines_eager hfile htable hwhole hcount).1.mpr hnone

end Forwarding.Delegation
