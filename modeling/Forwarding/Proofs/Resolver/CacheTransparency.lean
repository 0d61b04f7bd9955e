import Forwarding.Proofs.Resolver.CacheFrame

/-!
# Caches do not show

While nobody defines a type, registers bytes or lets go of a type, a resolver
answers every call as a new one would.  Its cache holds what following a stub
gives in the world that the resolver began in, and following gives the same in
every world that has grown from that one.  What a stub leads to is decided by
its key, so stubs that differ in their result types only may share an entry.
-/

namespace Forwarding

open World

variable {w base a b : World}

namespace Provider

theorem follow_congr {σ τ : Type} [DecidableEq τ] (p : Provider σ τ) {limits : Limits}
    {hops : Nat}
    {m m' : Method τ} (hkey : m.key = m'.key) :
    p.follow limits hops m = p.follow limits hops m' := by
  have howner : m.owner = m'.owner := congrArg StubKey.owner hkey
  have hshape : m.shape = m'.shape := congrArg StubKey.shape hkey
  cases hops with
  | zero => rfl
  | succ hops =>
      unfold follow target
      rw [howner, hshape]

end Provider

/-! ## Following a stub -/

/-- Both worlds give the same method, which belongs to a type that the common
world knows. -/
def SameMethod (base : World) (_ _ : World) (m m' : Method TypeRef) : Prop :=
  m = m' ∧ base.Knows m.owner

theorem alike_callee (hsound : base.registry.Sound) (ha : base.Grows a)
    (hb : base.Grows b) (depth : Nat) (d : Delegation) :
    Alike a b (SameMethod base) (provider.callee depth d a) (provider.callee depth d b) := by
  unfold Provider.callee
  refine (alike_lift ha.sound hb.sound _).bind ?_
  rintro descriptor _ a₁ b₁ ha₁ hb₁ ⟨rfl, -⟩
  replace ha := ha.trans ha₁
  replace hb := hb.trans hb₁
  refine (alike_load ha hb _).bind fun t u a₂ b₂ ha₂ hb₂ howner => ?_
  replace ha := ha.trans ha₂
  replace hb := hb.trans hb₂
  refine (alike_loadAll ha hb _).bind fun ts us a₃ b₃ ha₃ hb₃ hparameters => ?_
  replace ha := ha.trans ha₃
  replace hb := hb.trans hb₃
  have ht := howner.1.mono ha₃
  have hu := howner.2.mono hb₃
  rw [bind_of_ok (get_apply a₃), bind_of_ok (get_apply b₃)]
  dsimp only [provider]
  rw [findMethod_alike hsound ha hb ht hu hparameters.1 hparameters.2]
  refine (alike_lift ha.sound hb.sound _).bind ?_
  rintro found _ a₄ b₄ ha₄ hb₄ ⟨rfl, hfound⟩
  cases found with
  | some m =>
      refine .ok (.refl ha₄.sound) (.refl hb₄.sound) ⟨rfl, ?_⟩
      exact (holds_owner_of_findMethod hsound hb hu hfound).knows
  | none =>
      have hname : a₃.view.name t = b₃.view.name u :=
        (ht.nameOf_eq ha.sound).trans (hu.nameOf_eq hb.sound).symm
      dsimp only
      rw [hname]
      exact .error (.refl ha₄.sound) (.refl hb₄.sound)

theorem classBytes_eq {t : TypeRef} (hgrows : w.Grows a) (ht : w.Knows t) :
    provider.classBytes a t = provider.classBytes w t := by
  change a.registry.bytesOf (a.nameOf t) = w.registry.bytesOf (w.nameOf t)
  rw [hgrows.nameOf_eq ht, hgrows.registry.bytesOf]

theorem alike_target {stub : Method TypeRef} (hsound : base.registry.Sound)
    (ha : base.Grows a) (hb : base.Grows b) (depth : Nat) (hstub : base.Knows stub.owner) :
    Alike a b (SameMethod base) (provider.target depth stub a)
      (provider.target depth stub b) := by
  unfold Provider.target
  rw [bind_of_ok (get_apply a), bind_of_ok (get_apply b),
    classBytes_eq ha hstub, classBytes_eq hb hstub]
  refine (alike_lift ha.sound hb.sound _).bind ?_
  rintro bytes _ a₁ b₁ ha₁ hb₁ ⟨rfl, -⟩
  refine (alike_lift ha₁.sound hb₁.sound _).bind ?_
  rintro delegation _ a₂ b₂ ha₂ hb₂ ⟨rfl, -⟩
  exact alike_callee hsound (ha.trans (ha₁.trans ha₂)) (hb.trans (hb₁.trans hb₂)) depth
    delegation

/-- Following a stub gives the same in every world that has grown from one that
knows its owner. -/
theorem alike_follow (limits : Limits) (hops : Nat) {stub : Method TypeRef}
    (hsound : base.registry.Sound) (ha : base.Grows a) (hb : base.Grows b)
    (hstub : base.Knows stub.owner) :
    Alike a b (SameMethod base) (provider.follow limits hops stub a)
      (provider.follow limits hops stub b) := by
  induction hops generalizing stub a b with
  | zero => exact .error (.refl ha.sound) (.refl hb.sound)
  | succ hops ih =>
      unfold Provider.follow
      refine (alike_target hsound ha hb limits.hierarchyDepth hstub).bind ?_
      rintro next _ a₁ b₁ ha₁ hb₁ ⟨rfl, hnext⟩
      split
      next => exact ih (ha.trans ha₁) (hb.trans hb₁) hnext
      next => exact .ok (.refl ha₁.sound) (.refl hb₁.sound) ⟨rfl, hnext⟩

theorem World.Alike.answerOf_eq {x y : EStateM.Result Error World (Method TypeRef)}
    (hxy : Alike a b (SameMethod base) x y) : answerOf x = answerOf y := by
  cases hxy with
  | ok _ _ hsame => rw [answerOf, answerOf, hsame.1]
  | error => rfl

/-- Class bytes come with a registered name, and array types that have been made
since have none. -/
theorem knows_of_classBytes {t : TypeRef} {bytes : Array UInt8}
    (hsound : base.registry.Sound) (ha : base.Grows a)
    (hbytes : provider.classBytes a t = .ok bytes) : base.Knows t := by
  cases t with
  | hosted index => trivial
  | registered id =>
      have hbase : base.registry.bytesOf (a.registry.nameOf id) = .ok bytes := by
        rw [← ha.registry.bytesOf]
        exact hbytes
      obtain ⟨u, hu⟩ := hsound.bytes hbase
      by_contra hunknown
      by_cases hknown : a.registry.Knows id
      · obtain ⟨d, hd⟩ := Registry.knows_iff.mp hknown
        rw [Registry.nameOf_eq hd] at hu
        have hcurrent := (ha.registry.array hunknown hd).1
        cases (ha.registry.get? hu).symm.trans hcurrent
        exact hunknown (hsound.knows_of_get? hu)
      · rw [Registry.nameOf_of_not_knows hknown, hsound.nameless] at hu
        cases hu

theorem follow_of_not_knows (limits : Limits) (hops : Nat) {stub : Method TypeRef}
    (hsound : base.registry.Sound) (ha : base.Grows a) (hstub : ¬base.Knows stub.owner) :
    ∃ error, provider.follow limits hops stub a = .error error a := by
  cases hops with
  | zero => exact ⟨_, rfl⟩
  | succ hops =>
      cases hbytes : provider.classBytes a stub.owner with
      | ok bytes => exact absurd (knows_of_classBytes hsound ha hbytes) hstub
      | error error =>
          exact ⟨error,
            Provider.follow_of_target_error (Provider.target_of_classBytes_error hbytes) hops⟩

theorem World.Alike.grows {x y : EStateM.Result Error World (Method TypeRef)}
    (hxy : Alike a b (SameMethod base) x y) : a.Grows (stateAfter x) := by
  cases hxy with
  | ok ha _ _ => exact ha
  | error ha _ => exact ha

theorem grows_follow (limits : Limits) (hops : Nat) (stub : Method TypeRef)
    (hsound : w.registry.Sound) : w.Grows (stateAfter (provider.follow limits hops stub w)) := by
  have hrefl := Grows.refl hsound
  by_cases hstub : w.Knows stub.owner
  · exact (alike_follow limits hops hsound hrefl hrefl hstub).grows
  · obtain ⟨error, hfollow⟩ := follow_of_not_knows limits hops hsound hrefl hstub
    rw [hfollow]
    exact hrefl

namespace Resolver

/-! ## Quiet runs -/

/-- The states of a resolver that was made in a world, as long as in this world
calls are answered, names are loaded and types are held or let go, but no type
that was held in the beginning. -/
inductive QuietRun (limits : Limits) (w : World) : Resolving World TypeRef → Prop
  | start : QuietRun limits w ⟨w, .empty⟩
  | call {s : Resolving World TypeRef} (c : Call TypeRef) : QuietRun limits w s →
      QuietRun limits w (stateAfter (answer provider limits c s))
  | load {s : Resolving World TypeRef} (name : String) : QuietRun limits w s →
      QuietRun limits w { s with world := stateAfter (World.load name s.world) }
  | hold {s : Resolving World TypeRef} (held : List TypeId) : QuietRun limits w s →
      (∀ t ∈ w.held, t ∈ held) →
      (∀ t ∈ held, s.world.registry.isAlive s.world.held t = true) →
      QuietRun limits w { s with world := { s.world with held } }

/-- A cache that holds what following stubs gives in a world. -/
structure Remembers (limits : Limits) (w : World) (cache : StubCache TypeRef) : Prop where
  knows : ∀ {key m}, cache.get? key = some m → w.Knows key.owner
  follow : ∀ {stub m}, cache.get? stub.key = some m →
    answerOf (provider.follow limits limits.stubChain stub w) = .ok m

variable {limits : Limits} {s : Resolving World TypeRef}

theorem Remembers.insert {cache : StubCache TypeRef} {stub m : Method TypeRef} {w' : World}
    (hremembers : Remembers limits w cache) (hsound : w.registry.Sound)
    (hgrows : w.Grows a)
    (hfollow : provider.follow limits limits.stubChain stub a = .ok m w') :
    Remembers limits w (cache.insert stub.key m) := by
  have hknows : w.Knows stub.owner := by
    by_contra hunknown
    obtain ⟨error, hfailure⟩ :=
      follow_of_not_knows limits limits.stubChain hsound hgrows hunknown
    rw [hfailure] at hfollow
    cases hfollow
  constructor
  · intro key found hget
    rw [Cache.get?_insert] at hget
    split at hget
    next hkey =>
      rw [← hkey]
      exact hknows
    next => exact hremembers.knows hget
  · intro stub' found hget
    rw [Cache.get?_insert] at hget
    split at hget
    next hkey =>
      -- `stub'` may have another result type, and the hops do not look at it.
      cases hget
      rw [← provider.follow_congr hkey]
      have halike :=
        alike_follow limits limits.stubChain hsound (.refl hsound) hgrows hknows
      rw [halike.answerOf_eq, hfollow]
      rfl
    next => exact hremembers.follow hget

/-- What a quiet run keeps: the world has grown from the first one, and the
cache remembers what stubs lead to in that one. -/
structure Quiet (limits : Limits) (w : World) (s : Resolving World TypeRef) : Prop where
  grows : w.Grows s.world
  remembers : Remembers limits w s.cache

theorem Quiet.resolveMethod (hquiet : Quiet limits w s) (hsound : w.registry.Sound)
    (m : Method TypeRef) :
    Quiet limits w (stateAfter (resolveMethod provider limits m s)) := by
  unfold Resolver.resolveMethod
  split
  next =>
    split
    next => exact hquiet
    next =>
      have hgrows := grows_follow limits limits.stubChain m hquiet.grows.sound
      cases hfollow : provider.follow limits limits.stubChain m s.world with
      | ok found world =>
          rw [hfollow] at hgrows
          exact ⟨hquiet.grows.trans hgrows,
            hquiet.remembers.insert hsound hquiet.grows hfollow⟩
      | error source world =>
          rw [hfollow] at hgrows
          exact ⟨hquiet.grows.trans hgrows, hquiet.remembers⟩
  next => exact hquiet

theorem Quiet.answer (hquiet : Quiet limits w s) (hsound : w.registry.Sound)
    (c : Call TypeRef) :
    Quiet limits w (stateAfter (Resolver.answer provider limits c s)) := by
  have hmethod (m : Method TypeRef) :
      Quiet limits w
        (stateAfter (Resolver.answer provider limits (.resolveMethod m) s)) := by
    unfold Resolver.answer
    rw [stateAfter_map]
    exact hquiet.resolveMethod hsound m
  cases c with
  | resolveMethod m => exact hmethod m
  | resolve type shape =>
      rw [answer_resolve]
      cases (provider.view s.world).findMethod limits.hierarchyDepth type shape with
      | error error => exact hquiet
      | ok found =>
          cases found with
          | none => exact hquiet
          | some m => exact hmethod m

theorem QuietRun.quiet (hrun : QuietRun limits w s) (hsound : w.registry.Sound) :
    Quiet limits w s := by
  induction hrun with
  | start =>
      exact ⟨.refl hsound, fun hget => by simp at hget, fun hget => by simp at hget⟩
  | call c _ ih => exact ih.answer hsound c
  | load name _ ih => exact ⟨ih.grows.trans (grows_load ih.grows.sound name), ih.remembers⟩
  | hold held _ hkept hheld ih => exact ⟨ih.grows.hold hsound hkept hheld, ih.remembers⟩

/-! ## The answers in a quiet run -/

theorem Quiet.answerOf_resolveMethod (hquiet : Quiet limits w s)
    (hsound : w.registry.Sound) (m : Method TypeRef) :
    answerOf (Resolver.resolveMethod provider limits m s) =
      answerOf (Resolver.resolveMethod provider limits m { s with cache := .empty }) := by
  unfold Resolver.resolveMethod
  split
  next =>
    dsimp only
    rw [Cache.get?_empty]
    split
    next known hknown =>
      -- The entry tells where the stub leads in `w`, and there it leads here too.
      have halike := alike_follow limits limits.stubChain hsound (.refl hsound)
        hquiet.grows (hquiet.remembers.knows hknown)
      have hfollow := hquiet.remembers.follow hknown
      rw [halike.answerOf_eq] at hfollow
      cases hresult : provider.follow limits limits.stubChain m s.world with
      | ok found world =>
          rw [hresult] at hfollow
          cases hfollow
          rfl
      | error source world => rw [hresult] at hfollow; cases hfollow
    next => cases provider.follow limits limits.stubChain m s.world <;> rfl
  next => rfl

theorem answerOf_resolveMethod_of_grows {m : Method TypeRef} (hsound : w.registry.Sound)
    (hgrows : w.Grows a) (howner : w.Knows m.owner)
    (hparameters : ∀ t ∈ m.shape.parameters, w.Knows t) :
    answerOf (Resolver.resolveMethod provider limits m ⟨a, .empty⟩) =
      answerOf (Resolver.resolveMethod provider limits m ⟨w, .empty⟩) := by
  have hdisplay {w' : World} (hw' : w.Grows w') :
      m.display (provider.view w').name = m.display w.nameOf := by
    change m.display w'.nameOf = _
    unfold Method.display StubKey.display Shape.display Method.key
    dsimp only
    rw [hw'.nameOf_eq howner, List.map_congr_left fun t ht => hw'.nameOf_eq (hparameters t ht)]
  have halike :=
    alike_follow limits limits.stubChain hsound hgrows (.refl hsound) howner
  unfold Resolver.resolveMethod
  split
  next =>
    dsimp only
    rw [Cache.get?_empty]
    dsimp only
    cases ha : provider.follow limits limits.stubChain m a with
    | ok found a' =>
        cases hw : provider.follow limits limits.stubChain m w with
        | ok found' w' =>
            rw [ha, hw] at halike
            cases halike with
            | ok _ _ hsame => rw [hsame.1]; rfl
        | error error' w' => rw [ha, hw] at halike; cases halike
    | error error a' =>
        cases hw : provider.follow limits limits.stubChain m w with
        | ok found' w' => rw [ha, hw] at halike; cases halike
        | error error' w' =>
            rw [ha, hw] at halike
            cases halike with
            | error ha' hw' =>
                dsimp only [answerOf]
                rw [hdisplay (hgrows.trans ha'), hdisplay hw']
  next => rfl

def Call.types : Call TypeRef → List TypeRef
  | .resolve type shape => type :: shape.parameters
  | .resolveMethod m => m.owner :: m.shape.parameters

theorem Quiet.answerOf_answer (hquiet : Quiet limits w s) (hsound : w.registry.Sound)
    (c : Call TypeRef) :
    answerOf (Resolver.answer provider limits c s) =
      answerOf (Resolver.answer provider limits c { s with cache := .empty }) := by
  have hmethod (m : Method TypeRef) :
      answerOf (Resolver.answer provider limits (.resolveMethod m) s) =
        answerOf (Resolver.answer provider limits (.resolveMethod m)
          { s with cache := .empty }) := by
    unfold Resolver.answer
    rw [answerOf_map, answerOf_map, hquiet.answerOf_resolveMethod hsound]
  cases c with
  | resolveMethod m => exact hmethod m
  | resolve type shape =>
      rw [answer_resolve, answer_resolve]
      dsimp only
      cases (provider.view s.world).findMethod limits.hierarchyDepth type shape with
      | error error => rfl
      | ok found =>
          cases found with
          | none => rfl
          | some m => exact hmethod m

theorem answerOf_answer_of_grows {c : Call TypeRef} (hsound : w.registry.Sound)
    (hclosed : w.Closed) (hgrows : w.Grows a) (hknown : ∀ t ∈ c.types, w.Knows t) :
    answerOf (answer provider limits c ⟨a, .empty⟩) =
      answerOf (answer provider limits c ⟨w, .empty⟩) := by
  have hmethod {m : Method TypeRef} (howner : w.Knows m.owner)
      (hparameters : ∀ t ∈ m.shape.parameters, w.Knows t) :
      answerOf (answer provider limits (.resolveMethod m) ⟨a, .empty⟩) =
        answerOf (answer provider limits (.resolveMethod m) ⟨w, .empty⟩) := by
    unfold answer
    rw [answerOf_map, answerOf_map,
      answerOf_resolveMethod_of_grows hsound hgrows howner hparameters]
  cases c with
  | resolveMethod m =>
      obtain ⟨howner, hparameters⟩ := List.forall_mem_cons.mp hknown
      exact hmethod howner hparameters
  | resolve type shape =>
      obtain ⟨htype, hparameters⟩ := List.forall_mem_cons.mp hknown
      have hview : (provider.view a).findMethod limits.hierarchyDepth type shape =
          (provider.view w).findMethod limits.hierarchyDepth type shape :=
        findMethod_known hclosed hsound hgrows htype
      rw [answer_resolve, answer_resolve]
      dsimp only
      rw [hview]
      cases hfind : (provider.view w).findMethod limits.hierarchyDepth type shape with
      | error error => rfl
      | ok found =>
          cases found with
          | none => rfl
          | some m =>
              obtain ⟨howner, hshape⟩ := owner_of_findMethod hclosed hsound htype hfind
              exact hmethod howner (hshape ▸ hparameters)

/-- In a quiet run every call is answered as a new resolver would answer it, at
this point and, if the call is about types that were there in the beginning, at
the beginning.  So neither the calls before nor their order matter. -/
theorem cache_transparent (hreachable : w.registry.Reachable)
    (hrun : QuietRun limits w s) (c : Call TypeRef) :
    answerOf (answer provider limits c s) =
      answerOf (answer provider limits c { s with cache := .empty }) ∧
    (w.Closed → (∀ t ∈ c.types, w.Knows t) →
      answerOf (answer provider limits c s) =
        answerOf (answer provider limits c ⟨w, .empty⟩)) := by
  have hsound := hreachable.sound
  have hquiet := hrun.quiet hsound
  have hfresh := hquiet.answerOf_answer hsound c
  exact ⟨hfresh, fun hclosed hknown =>
    hfresh.trans (answerOf_answer_of_grows hsound hclosed hquiet.grows hknown)⟩

/-- The stub `f` is resolved and an array type is loaded.  What is remembered of `f` then
answers the next call that comes to `f`, and one that comes to a stub with the key of `f` and
any other result. -/
theorem cache_transparent_overloads :
    ∃ (w : World) (t : TypeRef) (f long : Method TypeRef), w.HasOverloads t ∧
      let c : Call TypeRef := .resolve t ⟨"f", []⟩
      let first := stateAfter (answer provider ⟨1, 1⟩ c ⟨w, .empty⟩)
      let s := { first with world := stateAfter (World.load "int[]" first.world) }
      w.registry.Reachable ∧ QuietRun ⟨1, 1⟩ w s ∧ s.cache.get? f.key = some long ∧
      answerOf (answer provider ⟨1, 1⟩ c s) = answerOf (answer provider ⟨1, 1⟩ c ⟨w, .empty⟩) ∧
      answerOf (answer provider ⟨1, 1⟩ c ⟨w, .empty⟩) = .ok (some long) ∧
      ∀ result,
        let c' : Call TypeRef := .resolveMethod { f with result }
        answerOf (answer provider ⟨1, 1⟩ c' s) = .ok (some long) ∧
        answerOf (answer provider ⟨1, 1⟩ c' { s with cache := .empty }) = .ok (some long) := by
  obtain ⟨w, t, hhas⟩ := exists_hasOverloads
  obtain ⟨f, long, _, _, hmethods⟩ := hhas.exists_overloads
  refine ⟨w, t, f, long, hhas, ?_⟩
  intro c first s
  have hanswer := answer_overloads_f hhas hmethods
  have hrun : QuietRun ⟨1, 1⟩ w s := .load "int[]" (.call c .start)
  have hstored : s.cache.get? f.key = some long := by
    change first.cache.get? f.key = _
    have hfirst : first = ⟨w, Cache.empty.insert f.key long⟩ := congrArg stateAfter hanswer
    rw [hfirst, Cache.get?_insert, if_pos rfl]
  have hsound := hhas.reachable.sound
  have hknown : ∀ u ∈ c.types, w.Knows u := by
    intro u hu
    cases List.mem_singleton.mp hu
    exact knows_of_classBytes hsound (.refl hsound) hhas.bytes
  obtain ⟨-, hbeginning⟩ := cache_transparent hhas.reachable hrun c
  refine ⟨hhas.reachable, hrun, hstored, hbeginning hhas.closed hknown,
    congrArg answerOf hanswer, ?_⟩
  intro result c'
  have hstub : Method.isStub { f with result } = true := hmethods.isStub_f
  have hstored' : s.cache.get? (Method.key { f with result }) = some long := hstored
  have hanswer' : answerOf (answer provider ⟨1, 1⟩ c' s) = .ok (some long) :=
    congrArg answerOf (answer_resolveMethod_of_get? hstub hstored')
  obtain ⟨hfresh, -⟩ := cache_transparent hhas.reachable hrun c'
  exact ⟨hanswer', hfresh.symm.trans hanswer'⟩

end Resolver

end Forwarding
