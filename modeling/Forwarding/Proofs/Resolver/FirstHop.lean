import Forwarding.Proofs.Delegation
import Forwarding.Proofs.Registry.ClassFile
import Forwarding.Proofs.Resolver.HopTarget
import Forwarding.Proofs.Resolver.Life

/-!
# The first hop

A stub is looked for in its class file by its name and its number of
parameters.  So the first hop from a stub goes where the first stub of the
method table with this name and this number of parameters goes.  That is the
stub itself unless an earlier one shares both.
-/

namespace Forwarding.Resolver

open ClassFile

/-- Resolving a stub, not known to the cache, whose first hop goes where a
delegation says. -/
def resolveAlong {σ τ : Type} [DecidableEq τ] (p : Provider σ τ) (limits : Limits)
    (stub : Method τ) (d : Delegation) :
    EStateM Error (Resolving σ τ) (Method τ) := fun s =>
  let hops : EStateM Error σ (Method τ) := do
    let next ← p.callee limits.hierarchyDepth d
    if next.isStub then p.follow limits (limits.stubChain - 1) next else pure next
  match hops s.world with
  | .ok found world => .ok found ⟨world, s.cache.insert stub.key found⟩
  | .error source world =>
      .error (.stubResolution (stub.display (p.view world).name) source) { s with world }

theorem resolveMethod_eq_resolveAlong {σ τ : Type} [DecidableEq τ] {p : Provider σ τ}
    {limits : Limits} {stub : Method τ} {d : Delegation} {s : Resolving σ τ}
    (hstub : stub.isStub = true) (hmiss : s.cache.get? stub.key = none)
    (hchain : limits.stubChain ≠ 0)
    (htarget : p.target limits.hierarchyDepth stub s.world =
      p.callee limits.hierarchyDepth d s.world) :
    resolveMethod p limits stub s = resolveAlong p limits stub d s := by
  obtain ⟨hops, hhops⟩ := Nat.exists_eq_succ_of_ne_zero hchain
  unfold resolveMethod resolveAlong
  rw [if_pos hstub, hmiss, hhops]
  dsimp only
  rw [Provider.follow, bind_congr_left htarget]
  rfl

theorem resolveAlong_of_callee_error {σ τ : Type} [DecidableEq τ] {p : Provider σ τ}
    {limits : Limits} {stub : Method τ} {d : Delegation} {s : Resolving σ τ} {source : Error}
    {world : σ} (hcallee : p.callee limits.hierarchyDepth d s.world = .error source world) :
    resolveAlong p limits stub d s =
      .error (.stubResolution (stub.display (p.view world).name) source) { s with world } := by
  unfold resolveAlong
  dsimp only
  rw [bind_eq_error.mpr (Or.inl hcallee)]

theorem source_of_resolveAlong {σ τ : Type} [DecidableEq τ] {p : Provider σ τ}
    {limits : Limits} {stub : Method τ} {d : Delegation} {s s' : Resolving σ τ}
    {text : String} {source : Error}
    (hresult : resolveAlong p limits stub d s = .error (.stubResolution text source) s') :
    ∃ world, (p.callee limits.hierarchyDepth d >>= fun next =>
      if next.isStub then p.follow limits (limits.stubChain - 1) next else pure next) s.world =
        .error source world := by
  unfold resolveAlong at hresult
  dsimp only at hresult
  split at hresult
  next => cases hresult
  next found world hhops =>
    cases hresult
    exact ⟨world, hhops⟩

variable {w : World} {t : TypeId} {bytes : Array UInt8} {file : ClassFile}
  {table : MethodTable} {s b : MethodEntry} {handle : Method TypeId}

/-- The search for a stub that a type declares comes to the first candidate of the
method table, because all descriptors in front of it can be counted. -/
theorem find_eq_scan {r : Registry} (hmade : r.MadeFrom t bytes)
    (hfile : ClassFile.parse bytes = .ok file) (htable : file.methods = .ok table)
    (hhandle : r.HandleOf t table s handle)
    (hfirst : Delegation.FirstFits handle.shape.name handle.shape.parameters.length
      table.methods b) :
    Delegation.find bytes handle.shape.name handle.shape.parameters.length =
      Delegation.scan file.pool b := by
  obtain ⟨husable, hdeclared, -⟩ := hhandle.declaredAs hmade hfile htable
  have hname : Registry.isInitializer s.name = false := by
    simpa using (List.mem_filter.mp husable).2
  have hcounts : Delegation.Countable handle.shape.name table.methods := by
    intro other hother _ hsame
    rw [hdeclared.name] at hsame
    exact hmade.exists_parameterCount hfile htable hother (hsame ▸ hname)
  exact Delegation.find_of_firstFits hfile htable hcounts hfirst

theorem find_of_firstFits {count : Nat} {callee : ConstantPool.MemberRef}
    (hmade : w.registry.MadeFrom t bytes) (hfile : ClassFile.parse bytes = .ok file)
    (htable : file.methods = .ok table) (hhandle : w.registry.HandleOf t table s handle)
    (hcount : Descriptor.parameterCount s.descriptor = .ok count)
    (hfirst : Delegation.FirstFits s.name count table.methods b)
    (hcall : Delegation.FirstCall file.pool b callee) :
    ∃ d, Delegation.find bytes handle.shape.name handle.shape.parameters.length = .ok d ∧
      d.Calls callee := by
  obtain ⟨-, hdeclared, -⟩ := hhandle.declaredAs hmade hfile htable
  cases hcount.symm.trans hdeclared.parameters
  rw [← hdeclared.name] at hfirst
  obtain ⟨d, hscan, hcalls⟩ := Delegation.scan_of_firstCall hcall
  exact ⟨d, (find_eq_scan hmade hfile htable hhandle hfirst).trans hscan, hcalls⟩

theorem target_of_find {d : Delegation} {depth : Nat}
    (hbytes : w.registry.bytesOf (w.registry.nameOf handle.owner) = .ok bytes)
    (hfind : Delegation.find bytes handle.shape.name handle.shape.parameters.length = .ok d) :
    World.provider.target depth (handle.map .registered) w =
      World.provider.callee depth d w := by
  refine Provider.target_of_find hbytes ?_
  change Delegation.find bytes handle.shape.name
    (handle.shape.parameters.map TypeRef.registered).length = .ok d
  rw [List.length_map]
  exact hfind

/-- A handle that a type declares for a stub of its class file is resolved along
the first call of the first stub in the method table with its name and its
number of parameters, which is its own call unless an earlier stub has both. -/
theorem first_hop_of_first_fit {count : Nat} {callee : ConstantPool.MemberRef}
    (hmade : w.registry.MadeFrom t bytes) (hfile : ClassFile.parse bytes = .ok file)
    (htable : file.methods = .ok table) (hstub : s.flags.isStub = true)
    (hhandle : w.registry.HandleOf t table s handle)
    (hcount : Descriptor.parameterCount s.descriptor = .ok count)
    (hfirst : Delegation.FirstFits s.name count table.methods b)
    (hcall : Delegation.FirstCall file.pool b callee) :
    ∃ d : Delegation, d.Calls callee ∧ ∀ (limits : Limits) (cache : StubCache TypeRef),
      limits.stubChain ≠ 0 → cache.get? (handle.map .registered).key = none →
      resolveMethod World.provider limits (handle.map .registered) ⟨w, cache⟩ =
        resolveAlong World.provider limits (handle.map .registered) d ⟨w, cache⟩ := by
  obtain ⟨-, hdeclared, howner⟩ := hhandle.declaredAs hmade hfile htable
  obtain ⟨d, hfind, hcalls⟩ :=
    find_of_firstFits hmade hfile htable hhandle hcount hfirst hcall
  refine ⟨d, hcalls, fun limits cache hchain hmiss => ?_⟩
  have hflags : (handle.map TypeRef.registered).isStub = true := by
    change handle.flags.isStub = true
    rw [hdeclared.flags, hstub]
  have hbytes := hmade.bytes
  rw [← howner] at hbytes
  exact resolveMethod_eq_resolveAlong hflags hmiss hchain (target_of_find hbytes hfind)

/-! ## A class with overloaded stubs -/

/-- A class `T` with two stubs `f`: the first, of an `int`, calls a class `U` that
nobody has defined, and the second, of a `long`, calls `h` of its own class. -/
def overloaded : Array UInt8 := #[
  0xCA, 0xFE, 0xBA, 0xBE, 0x00, 0x00, 0x00, 0x34, 0x00, 0x12, 0x01, 0x00,
  0x01, 0x54, 0x07, 0x00, 0x01, 0x01, 0x00, 0x10, 0x6A, 0x61, 0x76, 0x61,
  0x2F, 0x6C, 0x61, 0x6E, 0x67, 0x2F, 0x4F, 0x62, 0x6A, 0x65, 0x63, 0x74,
  0x07, 0x00, 0x03, 0x01, 0x00, 0x01, 0x66, 0x01, 0x00, 0x04, 0x28, 0x49,
  0x29, 0x56, 0x01, 0x00, 0x01, 0x55, 0x07, 0x00, 0x07, 0x01, 0x00, 0x01,
  0x67, 0x01, 0x00, 0x03, 0x28, 0x29, 0x56, 0x0C, 0x00, 0x09, 0x00, 0x0A,
  0x0A, 0x00, 0x08, 0x00, 0x0B, 0x01, 0x00, 0x04, 0x43, 0x6F, 0x64, 0x65,
  0x01, 0x00, 0x04, 0x28, 0x4A, 0x29, 0x56, 0x01, 0x00, 0x01, 0x68, 0x0C,
  0x00, 0x0F, 0x00, 0x0A, 0x0A, 0x00, 0x02, 0x00, 0x10, 0x00, 0x01, 0x00,
  0x02, 0x00, 0x04, 0x00, 0x00, 0x00, 0x00, 0x00, 0x03, 0x10, 0x41, 0x00,
  0x05, 0x00, 0x06, 0x00, 0x01, 0x00, 0x0D, 0x00, 0x00, 0x00, 0x10, 0x00,
  0x02, 0x00, 0x02, 0x00, 0x00, 0x00, 0x04, 0xB8, 0x00, 0x0C, 0xB1, 0x00,
  0x00, 0x00, 0x00, 0x10, 0x41, 0x00, 0x05, 0x00, 0x0E, 0x00, 0x01, 0x00,
  0x0D, 0x00, 0x00, 0x00, 0x10, 0x00, 0x02, 0x00, 0x02, 0x00, 0x00, 0x00,
  0x04, 0xB8, 0x00, 0x11, 0xB1, 0x00, 0x00, 0x00, 0x00, 0x00, 0x01, 0x00,
  0x0F, 0x00, 0x0A, 0x00, 0x00, 0x00, 0x00]

def stubOfInt : MethodEntry :=
  ⟨⟨0x1041⟩, "f", "(I)V", some ⟨2, 2, [0xB8, 0x00, 0x0C, 0xB1]⟩⟩

def stubOfLong : MethodEntry :=
  ⟨⟨0x1041⟩, "f", "(J)V", some ⟨2, 2, [0xB8, 0x00, 0x11, 0xB1]⟩⟩

def calledByInt : ConstantPool.MemberRef :=
  ⟨.method, "U", "g", "()V"⟩

def calledByLong : ConstantPool.MemberRef :=
  ⟨.method, "T", "h", "()V"⟩

theorem overloaded_parsed :
    ∃ file table, ClassFile.parse overloaded = .ok file ∧ file.methods = .ok table ∧
      table.methods = [stubOfInt, stubOfLong, ⟨⟨1⟩, "h", "()V", none⟩] ∧
      file.pool.memberRef 12 = .ok calledByInt ∧
      file.pool.memberRef 17 = .ok calledByLong := by
  have hcomputed :
      ((ClassFile.parse overloaded).toOption.bind fun file =>
        file.methods.toOption.map fun table =>
          (table.methods, (file.pool.memberRef 12).toOption,
            (file.pool.memberRef 17).toOption)) =
        some ([stubOfInt, stubOfLong, ⟨⟨1⟩, "h", "()V", none⟩], some calledByInt,
          some calledByLong) := by
    decide +kernel
  obtain ⟨file, hfile, hcomputed⟩ := Option.bind_eq_some_iff.mp hcomputed
  obtain ⟨table, htable, hcomputed⟩ := Option.map_eq_some_iff.mp hcomputed
  simp only [Prod.mk.injEq, except_toOption_eq_some] at hfile htable hcomputed
  exact ⟨file, table, hfile, htable, hcomputed⟩

theorem firstCall_of_overloaded {pool : ConstantPool} {m : MethodEntry}
    {callee : ConstantPool.MemberRef} {index : UInt16} {body : CodeAttribute}
    (hmember : pool.memberRef index = .ok callee) (hcode : m.code = some body)
    (hkind : callee.kind ≠ .field)
    (hindex : ((Bytecode.decodeFrom (.start body.code.toArray)).instructions.find?
      Bytecode.Instruction.isMethodCall).bind (·.operand.constantIndex?) = some index) :
    Delegation.FirstCall pool m callee := by
  obtain ⟨call, hcall, hoperand⟩ := Option.bind_eq_some_iff.mp hindex
  exact ⟨hkind, body, call, index, hcode, hcall, hoperand, hmember⟩

theorem overloaded_defined :
    ∃ t r, Registry.defineClassFile overloaded .initial = .ok t r ∧
      r.get? "T" = some t ∧ ¬r.Loadable "U" := by
  have hcomputed :
      (Registry.specOfClassFile overloaded).toOption.any (fun spec =>
        spec.name = "T" &&
          (spec.parent.toList ++ spec.methods.flatMap fun m => m.result :: m.parameters).all
            fun name => name ∈ Registry.builtin.map Definition.name) = true := by
    decide +kernel
  obtain ⟨spec, hspec, hnames⟩ := (Option.any_eq_true ..).mp hcomputed
  rw [except_toOption_eq_some] at hspec
  rw [Bool.and_eq_true, decide_eq_true_iff, List.all_eq_true] at hnames
  obtain ⟨hname, hnames⟩ := hnames
  have hdefinable : Registry.definable spec.name = true := by
    rw [hname]
    decide +kernel
  obtain ⟨t, r, hdefine⟩ := Registry.define_succeeds_initially hdefinable
    fun name hname => of_decide_eq_true (hnames name hname)
  refine ⟨t, r, ?_, ?_, ?_⟩
  · unfold Registry.defineClassFile
    rw [hspec]
    exact hdefine
  · rw [← hname]
    exact Registry.get?_of_define Registry.sound_initial hdefine
  · rw [Registry.loadable_of_define Registry.sound_initial hdefine (by decide +kernel)
      (by rw [hname]; decide)]
    rw [Registry.loadable_initial (by decide +kernel)]
    decide +kernel

/-- The stub of a `long` is resolved along the call of the stub of an `int`. -/
theorem first_hop_of_overloaded :
    ∃ t r file table handle, Registry.MadeFrom r t overloaded ∧
      ClassFile.parse overloaded = .ok file ∧ file.methods = .ok table ∧
      r.HandleOf t table stubOfLong handle ∧
      Delegation.FirstFits stubOfLong.name 1 table.methods stubOfInt ∧
      Delegation.FirstCall file.pool stubOfInt calledByInt ∧
      ∃ d : Delegation, d.Calls calledByInt ∧
        ∀ (limits : Limits) (cache : StubCache TypeRef),
          limits.stubChain ≠ 0 → cache.get? (handle.map .registered).key = none →
          resolveMethod World.provider limits (handle.map .registered) ⟨⟨r, #[], []⟩, cache⟩ =
            resolveAlong World.provider limits (handle.map .registered) d
              ⟨⟨r, #[], []⟩, cache⟩ := by
  obtain ⟨t, r, hdefine, -⟩ := overloaded_defined
  obtain ⟨file, table, hfile, htable, hmethods, hint, -⟩ := overloaded_parsed
  have hmade := Registry.madeFrom_of_define .refl hdefine
  have husable : stubOfLong ∈ Registry.usable table := by
    rw [Registry.usable, hmethods]
    decide
  obtain ⟨handle, hhandle⟩ := hmade.exists_handle hfile htable husable
  have hfirst : Delegation.FirstFits stubOfLong.name 1 table.methods stubOfInt :=
    ⟨[], _, hmethods, ⟨by decide, rfl, by decide⟩, by simp⟩
  have hcall : Delegation.FirstCall file.pool stubOfInt calledByInt :=
    firstCall_of_overloaded hint rfl (by decide) (by decide +kernel)
  exact ⟨t, r, file, table, handle, hmade, hfile, htable, hhandle, hfirst, hcall,
    first_hop_of_first_fit (w := ⟨r, #[], []⟩) hmade hfile htable (by decide) hhandle
      (by decide) hfirst hcall⟩

theorem parseMethod_nullary : Descriptor.parseMethod "()V" = .ok ⟨[], none⟩ := by
  have hcomputed : (Descriptor.parseMethod "()V").toOption = some ⟨[], none⟩ := by
    decide +kernel
  exact except_toOption_eq_some.mp hcomputed

theorem lift_nullary {w : World} {d : Delegation} (hdescriptor : d.descriptor = "()V") :
    (Provider.lift (Error.ofDescriptor (Descriptor.parseMethod d.descriptor)) :
      EStateM Error World MethodDescriptor) w = .ok ⟨[], none⟩ w := by
  rw [hdescriptor, parseMethod_nullary]
  rfl

theorem callee_of_int {w : World} {d : Delegation} {depth : Nat}
    (hcalls : d.Calls calledByInt) (hmissing : ¬w.registry.Loadable "U") :
    World.provider.callee depth d w = .error (.typeLoad (.unknown "U")) w := by
  have howner : d.ownerType = "U" := by
    rw [Delegation.ownerType, hcalls.owner]
    decide +kernel
  unfold Provider.callee
  rw [bind_of_ok (lift_nullary hcalls.descriptor), howner]
  have hbare : TypeName.split "U" = (0, "U") := by decide +kernel
  have hload := World.load_of_not_loadable hmissing
  rw [hbare] at hload
  exact bind_eq_error.mpr (Or.inl hload)

theorem callee_of_long {w w' : World} {d : Delegation} {depth : Nat} {error : Error}
    (hcalls : d.Calls calledByLong) (ht : w.registry.get? "T" = some t)
    (hcallee : World.provider.callee depth d w = .error error w') :
    error ≠ .typeLoad (.unknown "U") := by
  have howner : d.ownerType = "T" := by
    rw [Delegation.ownerType, hcalls.owner]
    decide +kernel
  have hload : World.load "T" w = .ok (.registered t) w := by
    refine map_eq_ok.mpr ⟨t, ?_, rfl⟩
    simp only [World.onRegistry, Registry.load_of_get? ht]
  have hnone : World.provider.loadAll (MethodDescriptor.parameterTypeNames ⟨[], none⟩) w =
      .ok [] w := rfl
  unfold Provider.callee at hcallee
  rw [bind_of_ok (lift_nullary hcalls.descriptor), howner] at hcallee
  change (World.load "T" >>= _) w = _ at hcallee
  rw [bind_of_ok hload, bind_of_ok hnone, bind_of_ok (get_apply w)] at hcallee
  rcases bind_eq_error.mp hcallee with hfind | ⟨found, w₁, hfind, hfound⟩
  · dsimp only [World.provider] at hfind
    cases hfirst : w.view.findMethod depth (.registered t) ⟨d.name, []⟩ with
    | ok found => rw [hfirst] at hfind; cases hfind
    | error failure =>
        rw [hfirst] at hfind
        cases hfind
        rw [TypeView.eq_failure_of_firstUp hfirst]
        exact Error.noConfusion
  · cases found with
    | some m => cases hfound
    | none =>
        cases hfound
        exact Error.noConfusion

/-- So a stub need not be resolved along its own call, even if no other method has
its name and its descriptor. -/
theorem not_own_call :
    ¬∀ (w : World) (t : TypeId) (bytes : Array UInt8) (file : ClassFile)
        (table : MethodTable) (s : MethodEntry) (handle : Method TypeId)
        (callee : ConstantPool.MemberRef),
      w.registry.MadeFrom t bytes → ClassFile.parse bytes = .ok file →
      file.methods = .ok table → s.flags.isStub = true →
      table.methods.countP (fun m => m.name = s.name && m.descriptor = s.descriptor) = 1 →
      w.registry.HandleOf t table s handle → Delegation.FirstCall file.pool s callee →
      ∃ d : Delegation, d.Calls callee ∧ ∀ (limits : Limits) (cache : StubCache TypeRef),
        limits.stubChain ≠ 0 → cache.get? (handle.map .registered).key = none →
        resolveMethod World.provider limits (handle.map .registered) ⟨w, cache⟩ =
          resolveAlong World.provider limits (handle.map .registered) d ⟨w, cache⟩ := by
  intro hlaw
  obtain ⟨t, r, hdefine, ht, hmissing⟩ := overloaded_defined
  obtain ⟨file, table, hfile, htable, hmethods, hint, hlong⟩ := overloaded_parsed
  have hmade := Registry.madeFrom_of_define .refl hdefine
  have husable : stubOfLong ∈ Registry.usable table := by
    rw [Registry.usable, hmethods]
    decide
  obtain ⟨handle, hhandle⟩ := hmade.exists_handle hfile htable husable
  obtain ⟨-, hdeclared, howner⟩ := hhandle.declaredAs hmade hfile htable
  have hfirst : Delegation.FirstFits stubOfLong.name 1 table.methods stubOfInt :=
    ⟨[], _, hmethods, ⟨by decide, rfl, by decide⟩, by simp⟩
  obtain ⟨d, hfind, hcalls⟩ := find_of_firstFits (w := ⟨r, #[], []⟩) hmade hfile htable
    hhandle (by decide) hfirst (firstCall_of_overloaded hint rfl (by decide) (by decide +kernel))
  obtain ⟨d', hcalls', hown⟩ := hlaw ⟨r, #[], []⟩ t overloaded file table stubOfLong handle
    calledByLong hmade hfile htable (by decide) (by rw [hmethods]; decide) hhandle
    (firstCall_of_overloaded hlong rfl (by decide) (by decide +kernel))
  have hbytes := hmade.bytes
  rw [← howner] at hbytes
  have hflags : (handle.map TypeRef.registered).isStub = true := by
    change handle.flags.isStub = true
    rw [hdeclared.flags]
    decide
  have htaken :
      resolveMethod World.provider .strict (handle.map .registered)
          ⟨⟨r, #[], []⟩, .empty⟩ =
        resolveAlong World.provider .strict (handle.map .registered) d
          ⟨⟨r, #[], []⟩, .empty⟩ :=
    resolveMethod_eq_resolveAlong hflags rfl (by decide)
      (target_of_find (w := ⟨r, #[], []⟩) hbytes hfind)
  have hlost : World.provider.callee Limits.strict.hierarchyDepth d ⟨r, #[], []⟩ =
      .error (.typeLoad (.unknown "U")) ⟨r, #[], []⟩ := callee_of_int hcalls hmissing
  rw [hown .strict .empty (by decide) rfl] at htaken
  -- What is reported is that `U` is missing, which no hop along `d'` can report.
  have hfails := htaken.trans (resolveAlong_of_callee_error hlost)
  obtain ⟨w', hhops⟩ := source_of_resolveAlong hfails
  rcases bind_eq_error.mp hhops with hcallee | ⟨next, w₁, -, hfollow⟩
  · exact callee_of_long hcalls' ht hcallee rfl
  · split at hfollow <;> cases hfollow

end Forwarding.Resolver
