import Forwarding.Proofs.Resolver.Life

/-!
# Resolvers never give stubs

A chain of hops ends with a method that is no stub, and only such ends are
cached.  So no call returns a stub, whatever it is asked for, whatever the
world provides and whatever has happened before.
-/

namespace Forwarding

variable {σ τ : Type}

/-- Whether a method is both a bridge and synthetic. -/
def Method.Forwards (m : Method τ) : Prop :=
  m.flags.has .isBridge = true ∧ m.flags.has .isSynthetic = true

theorem Method.isStub_iff {m : Method τ} : m.isStub = true ↔ m.Forwards := by
  simp [Forwards, isStub, MethodFlags.isStub]

variable [DecidableEq τ]

theorem Provider.not_forwards_of_follow {p : Provider σ τ} {limits : Limits}
    {hops : Nat} {stub found : Method τ} {world world' : σ}
    (hfollow : p.follow limits hops stub world = .ok found world') :
    ¬found.Forwards := by
  induction hops generalizing stub world with
  | zero => cases hfollow
  | succ hops ih =>
      obtain ⟨next, world₁, -, hnext⟩ := bind_eq_ok.mp hfollow
      by_cases hstub : next.isStub = true
      · rw [if_pos hstub] at hnext
        exact ih hnext
      · rw [if_neg hstub] at hnext
        cases hnext
        exact fun hforwards => hstub (Method.isStub_iff.mpr hforwards)

namespace Resolver

def CacheEnds (cache : StubCache τ) : Prop :=
  ∀ key m, cache.get? key = some m → ¬m.Forwards

theorem CacheEnds.insert {cache : StubCache τ} (hends : CacheEnds cache)
    {key : StubKey τ} {m : Method τ} (hm : ¬m.Forwards) :
    CacheEnds (cache.insert key m) := by
  intro key' m' hget
  rw [Cache.get?_insert] at hget
  split at hget
  next => cases hget; exact hm
  next => exact hends key' m' hget

/-- Resolving a method gives no stub and stores none: what is returned is no
stub itself, comes out of the cache or ends a chain of hops. -/
theorem CacheEnds.resolveMethod {s : Resolving σ τ} (hends : CacheEnds s.cache)
    (p : Provider σ τ) (limits : Limits) (m : Method τ) :
    CacheEnds (stateAfter (resolveMethod p limits m s)).cache ∧
      ∀ found s', Resolver.resolveMethod p limits m s = .ok found s' →
        ¬found.Forwards := by
  unfold Resolver.resolveMethod
  split
  next =>
    split
    next known hknown =>
      refine ⟨hends, fun found s' hfound => ?_⟩
      cases hfound
      exact hends _ _ hknown
    next =>
      cases hfollow : p.follow limits limits.stubChain m s.world with
      | ok found world =>
          have hfound := Provider.not_forwards_of_follow hfollow
          refine ⟨hends.insert hfound, fun found' s' hresult => ?_⟩
          cases hresult
          exact hfound
      | error source world =>
          refine ⟨hends, fun found s' hfound => ?_⟩
          cases hfound
  next hstub =>
    refine ⟨hends, fun found s' hfound => ?_⟩
    cases hfound
    exact fun hforwards => hstub (Method.isStub_iff.mpr hforwards)

theorem CacheEnds.answer {p : Provider σ τ} {limits : Limits} {c : Call τ}
    {s : Resolving σ τ} (hends : CacheEnds s.cache) :
    CacheEnds (stateAfter (answer p limits c s)).cache ∧
      ∀ found s', Resolver.answer p limits c s = .ok (some found) s' →
        ¬found.Forwards := by
  have hmethod (m : Method τ) :
      CacheEnds (stateAfter (Resolver.answer p limits (.resolveMethod m) s)).cache ∧
        ∀ found s', Resolver.answer p limits (.resolveMethod m) s = .ok (some found) s' →
          ¬found.Forwards := by
    obtain ⟨hkept, hnone⟩ := hends.resolveMethod p limits m
    constructor
    · unfold Resolver.answer
      rwa [stateAfter_map]
    · intro found s' hfound
      obtain ⟨found', hresult, hsome⟩ := map_eq_ok.mp hfound
      cases hsome
      exact hnone found s' hresult
  cases c with
  | resolveMethod m => exact hmethod m
  | resolve type shape =>
      rw [answer_resolve]
      cases (p.view s.world).findMethod limits.hierarchyDepth type shape with
      | error error => exact ⟨hends, fun found s' hfound => by cases hfound⟩
      | ok result =>
          cases result with
          | none => exact ⟨hends, fun found s' hfound => by cases hfound⟩
          | some m => exact hmethod m

/-- At no time in its life does a resolver hold a stub in its cache or answer
a call with one. -/
theorem never_forwards (p : Provider σ τ) (limits : Limits) (world : σ)
    (events : List (Event σ τ)) :
    (∀ key m, (live p limits world events).cache.get? key = some m →
      ¬m.Forwards) ∧
    ∀ c m s, answer p limits c (live p limits world events) = .ok (some m) s →
      ¬m.Forwards := by
  have hends : CacheEnds (live p limits world events).cache :=
    cache_of_live (fun _ _ hget => by simp at hget)
      (fun _ _ hgood => hgood.answer.1) world events
  exact ⟨hends, fun _ _ _ hanswer => hends.answer.2 _ _ hanswer⟩

end Resolver

end Forwarding
