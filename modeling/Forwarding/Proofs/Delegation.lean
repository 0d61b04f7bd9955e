import Forwarding.Delegation
import Forwarding.Proofs.Bytecode.Failing
import Forwarding.Proofs.ClassFile.Failing
import Forwarding.Proofs.Descriptor.Counting
import Forwarding.Proofs.Outcome

/-!
# Which call a search finds

A search for a stub by its name and its number of parameters stops at the first
stub of the method table that has both, whether or not another stub is meant,
and gives the first method call in the code of that one.
-/

namespace Forwarding.Delegation

open ClassFile Bytecode

variable {pool : ConstantPool} {stub m : MethodEntry} {name : String} {count : Nat}

/-! ## The first call -/

theorem instructions_decodeWith (fuel : Nat) (c : Cursor) (backwards : List Instruction) :
    (decodeWith fuel c backwards).instructions =
      backwards.reverse ++ (decodeWith fuel c []).instructions := by
  induction fuel generalizing c backwards with
  | zero => simp [decodeWith]
  | succ fuel ih =>
      unfold decodeWith
      split
      next =>
        split
        next i c' _ =>
          rw [ih c' (i :: backwards), ih c' [i]]
          simp
        next => simp
      next => simp

/-- A scan gives the first call of the instructions that can be decoded. -/
theorem scanWith_of_find? {fuel : Nat} {c : Cursor} {call : Instruction} {index : UInt16}
    (hcall : (decodeWith fuel c []).instructions.find? Instruction.isMethodCall = some call)
    (hindex : call.operand.constantIndex? = some index) :
    scanWith pool stub fuel c = ofCall pool stub call index := by
  induction fuel generalizing c with
  | zero => cases hcall
  | succ fuel ih =>
      unfold decodeWith at hcall
      unfold scanWith
      split
      next hmore =>
        rw [if_pos hmore] at hcall
        split
        next error c' hread =>
          rw [hread] at hcall
          cases hcall
        next i c' hread =>
          rw [hread] at hcall
          dsimp only at hcall
          rw [instructions_decodeWith, List.reverse_singleton, List.singleton_append,
            List.find?_cons] at hcall
          cases hi : i.isMethodCall with
          | true =>
              rw [hi] at hcall
              cases hcall
              rw [calledIndex?, if_pos hi, hindex]
          | false =>
              rw [hi] at hcall
              rw [calledIndex?, hi]
              exact ih hcall
      next hmore =>
        rw [if_neg hmore] at hcall
        cases hcall

/-- The first method call in the code of a method names the callee, which is a
method. -/
structure FirstCall (pool : ConstantPool) (m : MethodEntry)
    (callee : ConstantPool.MemberRef) : Prop where
  isMethod : callee.kind ≠ .field
  exists_call : ∃ body call index, m.code = some body ∧
    (decodeFrom (.start body.code.toArray)).instructions.find? Instruction.isMethodCall =
      some call ∧
    call.operand.constantIndex? = some index ∧ pool.memberRef index = .ok callee

/-- Whether a delegation is to the method that a reference names. -/
structure Calls (d : Delegation) (callee : ConstantPool.MemberRef) : Prop where
  owner : d.owner = callee.owner
  name : d.name = callee.name
  descriptor : d.descriptor = callee.descriptor

theorem scan_of_firstCall {callee : ConstantPool.MemberRef}
    (hfirst : FirstCall pool m callee) :
    ∃ d, scan pool m = .ok d ∧ d.Calls callee := by
  obtain ⟨body, call, index, hcode, hcall, hindex, hcallee⟩ := hfirst.exists_call
  have hscan : scan pool m = ofCall pool m call index := by
    rw [scan, hcode]
    exact scanWith_of_find? hcall hindex
  have hkind := hfirst.isMethod
  refine ⟨⟨callee.owner, callee.name, callee.descriptor,
    callee.kind = .interfaceMethod, call.offset⟩, ?_, rfl, rfl, rfl⟩
  rw [hscan, ofCall, hcallee]
  exact if_neg hkind

/-! ## Why a scan fails -/

variable {error : Error}

/-- What a scan fails for: there is no code, there is no call in it, an instruction in
front of the first call cannot be decoded, or a call names no method. -/
inductive ScanFailure (pool : ConstantPool) (stub : MethodEntry) : Error → Prop
  | noCode : stub.code = none → ScanFailure pool stub (.noDelegation stub.name)
  | noCall {body : CodeAttribute} : stub.code = some body →
      (∀ i ∈ (decodeFrom (.start body.code.toArray)).instructions, calledIndex? i = none) →
      ScanFailure pool stub (.noDelegation stub.name)
  | undecodable {body : CodeAttribute} {error : Error} : stub.code = some body →
      (∀ i ∈ (decodeFrom (.start body.code.toArray)).instructions, calledIndex? i = none) →
      (decodeFrom (.start body.code.toArray)).failure = some error →
      ScanFailure pool stub error
  | uncallable {body : CodeAttribute} {call : Instruction} {index : UInt16} {error : Error} :
      stub.code = some body →
      call ∈ (decodeFrom (.start body.code.toArray)).instructions →
      calledIndex? call = some index → ofCall pool stub call index = .error error →
      ScanFailure pool stub error

theorem failure_decodeWith (fuel : Nat) (c : Cursor) (backwards : List Instruction) :
    (decodeWith fuel c backwards).failure = (decodeWith fuel c []).failure := by
  induction fuel generalizing c backwards with
  | zero => rfl
  | succ fuel ih =>
      unfold decodeWith
      split
      next =>
        split
        next i c' _ => rw [ih c' (i :: backwards), ih c' [i]]
        next => rfl
      next => rfl

theorem scanWith_eq_error {fuel : Nat} {c : Cursor}
    (hscan : scanWith pool stub fuel c = .error error) :
    ((∀ i ∈ (decodeWith fuel c []).instructions, calledIndex? i = none) ∧
      (error = .noDelegation stub.name ∨ (decodeWith fuel c []).failure = some error)) ∨
    ∃ call ∈ (decodeWith fuel c []).instructions, ∃ index, calledIndex? call = some index ∧
      ofCall pool stub call index = .error error := by
  induction fuel generalizing c with
  | zero =>
      cases hscan
      exact Or.inl ⟨by simp [decodeWith], Or.inl rfl⟩
  | succ fuel ih =>
      unfold scanWith at hscan
      unfold decodeWith
      by_cases hmore : c.hasMore = true
      · rw [if_pos hmore] at hscan ⊢
        split at hscan
        next failure c' hread =>
          cases hscan
          rw [hread]
          exact Or.inl ⟨by simp, Or.inr rfl⟩
        next i c' hread =>
          rw [hread]
          dsimp only
          rw [instructions_decodeWith, failure_decodeWith, List.reverse_singleton,
            List.singleton_append]
          split at hscan
          next index hindex =>
            exact Or.inr ⟨i, List.mem_cons_self, index, hindex, hscan⟩
          next hnone =>
            cases ih hscan with
            | inl hdecoded =>
                rw [List.forall_mem_cons]
                exact Or.inl ⟨⟨hnone, hdecoded.1⟩, hdecoded.2⟩
            | inr hcalled =>
                obtain ⟨call, hcall, hindex⟩ := hcalled
                exact Or.inr ⟨call, List.mem_cons_of_mem i hcall, hindex⟩
      · rw [if_neg hmore] at hscan ⊢
        cases hscan
        exact Or.inl ⟨by simp, Or.inl rfl⟩

theorem scanFailure_of_scan (hscan : scan pool stub = .error error) :
    ScanFailure pool stub error := by
  unfold scan at hscan
  cases hcode : stub.code with
  | none =>
      rw [hcode] at hscan
      cases hscan
      exact .noCode hcode
  | some body =>
      rw [hcode] at hscan
      cases scanWith_eq_error hscan with
      | inr hcalled =>
          obtain ⟨call, hcall, index, hindex, hfails⟩ := hcalled
          exact .uncallable hcode hcall hindex hfails
      | inl hdecoded =>
          cases hdecoded.2 with
          | inr hfailure => exact .undecodable hcode hdecoded.1 hfailure
          | inl hnone =>
              rw [hnone]
              exact .noCall hcode hdecoded.1

theorem isUnreadable_of_ofCall {call : Instruction} {index : UInt16}
    (hcall : ofCall pool stub call index = .error error) : error.IsUnreadable := by
  unfold ofCall at hcall
  cases hcallee : pool.memberRef index with
  | error cause =>
      rw [hcallee] at hcall
      cases hcall
      exact .malformed cause
  | ok callee =>
      rw [hcallee] at hcall
      by_cases hkind : callee.kind = .field
      · change (if callee.kind = .field then _ else _) = _ at hcall
        rw [if_pos hkind] at hcall
        cases hcall
        exact .malformed _
      · change (if callee.kind = .field then _ else _) = _ at hcall
        rw [if_neg hkind] at hcall
        cases hcall

theorem ScanFailure.cause (hfailure : ScanFailure pool stub error) :
    error = .noDelegation stub.name ∨ error.IsUnreadable := by
  cases hfailure with
  | noCode _ => exact Or.inl rfl
  | noCall _ _ => exact Or.inl rfl
  | undecodable _ _ hdecode => exact Or.inr (isUnreadable_of_decodeWith hdecode)
  | uncallable _ _ _ hcall => exact Or.inr (isUnreadable_of_ofCall hcall)

/-! ## The first candidate -/

/-- Whether a method is a stub with the given name and number of parameters. -/
structure Fits (name : String) (count : Nat) (m : MethodEntry) : Prop where
  isStub : m.flags.isStub = true
  name_eq : m.name = name
  parameters : Descriptor.parameterCount m.descriptor = .ok count

theorem isCandidate_eq_ok_true_iff :
    isCandidate name count m = .ok true ↔ Fits name count m := by
  constructor
  · intro hcandidate
    unfold isCandidate at hcandidate
    split at hcandidate
    next hstub =>
      obtain ⟨hflags, hname⟩ : m.flags.isStub = true ∧ m.name = name := by simpa using hstub
      obtain ⟨n, hn, hcount⟩ := except_map_eq_ok.mp hcandidate
      rw [Error.ofDescriptor, except_mapError_eq_ok] at hn
      rw [decide_eq_true_iff] at hcount
      exact ⟨hflags, hname, hcount ▸ hn⟩
    next => cases hcandidate
  · intro hfits
    rw [isCandidate, if_pos (by simp [hfits.isStub, hfits.name_eq]), hfits.parameters]
    change Except.ok (decide (count = count)) = _
    rw [decide_eq_true rfl]

theorem isCandidate_of_not_fits
    (hcount : m.flags.isStub = true → m.name = name →
      ∃ n, Descriptor.parameterCount m.descriptor = .ok n)
    (hfits : ¬Fits name count m) : isCandidate name count m = .ok false := by
  unfold isCandidate
  split
  next hstub =>
    obtain ⟨hflags, hname⟩ : m.flags.isStub = true ∧ m.name = name := by simpa using hstub
    obtain ⟨n, hn⟩ := hcount hflags hname
    rw [hn]
    have hne : n ≠ count := by
      rintro rfl
      exact hfits ⟨hflags, hname, hn⟩
    change Except.ok (decide (n = count)) = _
    rw [decide_eq_false hne]
  next => rfl

/-- Whether a method is the first of a table that fits. -/
def FirstFits (name : String) (count : Nat) (methods : List MethodEntry)
    (m : MethodEntry) : Prop :=
  ∃ earlier later, methods = earlier ++ m :: later ∧ Fits name count m ∧
    ∀ other ∈ earlier, ¬Fits name count other

theorem exists_firstFits {methods : List MethodEntry} (hm : m ∈ methods)
    (hfits : Fits name count m) : ∃ first, FirstFits name count methods first := by
  induction methods with
  | nil => cases hm
  | cons other rest ih =>
      by_cases hother : Fits name count other
      · exact ⟨other, [], rest, rfl, hother, by simp⟩
      · have hrest : m ∈ rest := by
          cases List.mem_cons.mp hm with
          | inl heq => exact absurd (heq ▸ hfits) hother
          | inr hrest => exact hrest
        obtain ⟨first, earlier, later, hmethods, hfirst, hearlier⟩ := ih hrest
        refine ⟨first, other :: earlier, later, by rw [hmethods, List.cons_append], hfirst, ?_⟩
        rw [List.forall_mem_cons]
        exact ⟨hother, hearlier⟩

/-- Whether the parameters of all stubs with a name can be counted. -/
def Countable (name : String) (methods : List MethodEntry) : Prop :=
  ∀ m ∈ methods, m.flags.isStub = true → m.name = name →
    ∃ n, Descriptor.parameterCount m.descriptor = .ok n

/-- Methods in front of the stub are passed over if they are no candidates. -/
theorem findStub_append {earlier later : List MethodEntry} {failure : Option Error}
    (hpassed : ∀ other ∈ earlier, isCandidate name count other = .ok false) :
    findStub name count failure (earlier ++ later) = findStub name count failure later := by
  induction earlier with
  | nil => rfl
  | cons other rest ih =>
      rw [List.forall_mem_cons] at hpassed
      rw [List.cons_append, findStub, hpassed.1]
      exact ih hpassed.2

/-- A search ends with the first candidate, if no method in front of it is in doubt. -/
theorem findStub_eq_ok_iff {methods : List MethodEntry} {failure : Option Error} :
    findStub name count failure methods = .ok m ↔
      ∃ earlier later, methods = earlier ++ m :: later ∧ Fits name count m ∧
        ∀ other ∈ earlier, isCandidate name count other = .ok false := by
  constructor
  · intro hfind
    induction methods with
    | nil => cases failure <;> cases hfind
    | cons other rest ih =>
        unfold findStub at hfind
        split at hfind
        next => cases hfind
        next hcandidate =>
          cases hfind
          exact ⟨[], rest, rfl, isCandidate_eq_ok_true_iff.mp hcandidate, by simp⟩
        next hpassed =>
          obtain ⟨earlier, later, hrest, hfits, hearlier⟩ := ih hfind
          refine ⟨other :: earlier, later, by rw [hrest, List.cons_append], hfits, ?_⟩
          exact List.forall_mem_cons.mpr ⟨hpassed, hearlier⟩
  · rintro ⟨earlier, later, rfl, hfits, hearlier⟩
    rw [findStub_append hearlier, findStub, isCandidate_eq_ok_true_iff.mpr hfits]

theorem Countable.isCandidate_eq {methods : List MethodEntry} (hcount : Countable name methods)
    (hnone : ∀ m ∈ methods, ¬Fits name count m) :
    ∀ m ∈ methods, isCandidate name count m = .ok false :=
  fun m hm => isCandidate_of_not_fits (hcount m hm) (hnone m hm)

theorem findStub_of_firstFits {methods : List MethodEntry} {failure : Option Error}
    (hcount : Countable name methods) (hfirst : FirstFits name count methods m) :
    findStub name count failure methods = .ok m := by
  obtain ⟨earlier, later, rfl, hfits, hearlier⟩ := hfirst
  have hcountable : Countable name earlier := fun other hother =>
    hcount other (List.mem_append_left _ hother)
  exact findStub_eq_ok_iff.mpr ⟨earlier, later, rfl, hfits, hcountable.isCandidate_eq hearlier⟩

theorem find_eq_findStub {bytes : Array UInt8} {file : ClassFile} {table : MethodTable}
    (hfile : ClassFile.parse bytes = .ok file) (htable : file.methods = .ok table) :
    find bytes name count =
      findStub name count table.failure table.methods >>= scan file.pool := by
  unfold find
  rw [hfile]
  change (file.methods >>= _) = _
  rw [htable]
  rfl

/-- The search comes to the first candidate if all descriptors in front of it can be
counted. -/
theorem find_of_firstFits {bytes : Array UInt8} {file : ClassFile} {table : MethodTable}
    (hfile : ClassFile.parse bytes = .ok file) (htable : file.methods = .ok table)
    (hcount : Countable name table.methods) (hfirst : FirstFits name count table.methods m) :
    find bytes name count = scan file.pool m := by
  rw [find_eq_findStub hfile htable, findStub_of_firstFits hcount hfirst]
  rfl

/-! ## Why a search fails -/

/-- What a search for a stub fails for. -/
inductive SearchFailure (name : String) (count : Nat) : Error → Prop
  | notSupported : SearchFailure name count .notSupported
  | unreadable {error : Error} : error.IsUnreadable → SearchFailure name count error
  | descriptor (failure : Descriptor.Failure) :
      SearchFailure name count (.malformedDescriptor failure)
  | noStub : SearchFailure name count (.stubNotFound name count)
  | noCall : SearchFailure name count (.noDelegation name)

theorem searchFailure_of_isCandidate (hcandidate : isCandidate name count m = .error error) :
    SearchFailure name count error := by
  unfold isCandidate at hcandidate
  split at hcandidate
  next =>
    cases hcount : Descriptor.parameterCount m.descriptor with
    | ok n =>
        rw [hcount] at hcandidate
        cases hcandidate
    | error failure =>
        rw [hcount] at hcandidate
        cases hcandidate
        exact .descriptor failure
  next => cases hcandidate

theorem name_of_findStub {methods : List MethodEntry} {failure : Option Error}
    (hfind : findStub name count failure methods = .ok m) : m.name = name := by
  obtain ⟨_, _, _, hfits, _⟩ := findStub_eq_ok_iff.mp hfind
  exact hfits.name_eq

theorem searchFailure_of_findStub {methods : List MethodEntry} {failure : Option Error}
    (hfailure : ∀ error, failure = some error → error.IsUnreadable)
    (hfind : findStub name count failure methods = .error error) :
    SearchFailure name count error := by
  induction methods with
  | nil =>
      cases failure with
      | none =>
          cases hfind
          exact .noStub
      | some cause =>
          cases hfind
          exact .unreadable (hfailure error rfl)
  | cons other rest ih =>
      unfold findStub at hfind
      split at hfind
      next hcandidate =>
        cases hfind
        exact searchFailure_of_isCandidate hcandidate
      next => cases hfind
      next => exact ih hfind

theorem searchFailure_of_find {bytes : Array UInt8} (hfind : find bytes name count = .error error) :
    SearchFailure name count error := by
  obtain hparse | ⟨file, -, hfile⟩ := except_bind_eq_error.mp hfind
  · cases error_of_parse hparse with
    | inl hmagic =>
        rw [hmagic]
        exact .notSupported
    | inr hunreadable => exact .unreadable hunreadable
  obtain hmethods | ⟨table, htable, hstub⟩ := except_bind_eq_error.mp hfile
  · exact .unreadable (isUnreadable_of_methods hmethods)
  obtain hnone | ⟨stub, hfound, hscan⟩ := except_bind_eq_error.mp hstub
  · exact searchFailure_of_findStub (fun _ => isUnreadable_of_failure htable) hnone
  cases (scanFailure_of_scan hscan).cause with
  | inl hcall =>
      rw [hcall, name_of_findStub hfound]
      exact .noCall
  | inr hunreadable => exact .unreadable hunreadable

end Forwarding.Delegation
