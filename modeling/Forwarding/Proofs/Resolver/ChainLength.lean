import Forwarding.Proofs.Resolver.CacheTransparency

/-!
# Limits cut off and change nothing else

Following a stub is a way from one stub to the next.  Where the way goes does not depend
on the limits, which only say how far it is followed.  If it leaves the stubs or breaks
off within the limits, following ends there, and larger limits make no difference.  If it
does not, following ends with the error that tells the limit.  On a way that goes round in
a circle this happens with every limit.
-/

namespace Forwarding

namespace Provider

variable {σ τ : Type} [DecidableEq τ] {p : Provider σ τ} {limits limits' : Limits}
  {depth depth' n allowed allowed' : Nat} {stub last m : Method τ} {s s₁ s' : σ}
  {source : Error} {result : EStateM.Result Error σ (Method τ)}

/-! ## Hops under larger limits -/

theorem callee_raised {d : Delegation} (hle : depth ≤ depth')
    (hok : p.callee depth d s = .ok m s') : p.callee depth' d s = .ok m s' := by
  unfold callee at hok ⊢
  refine bind_eq_ok_mono (fun descriptor _ => ?_) hok
  refine bind_eq_ok_mono fun owner _ => ?_
  refine bind_eq_ok_mono fun parameters _ => ?_
  refine bind_eq_ok_mono fun world s₁ hlookup => ?_
  obtain ⟨found, s₂, hlift, hthen⟩ := bind_eq_ok.mp hlookup
  obtain ⟨hfound, rfl⟩ := eq_of_lift hlift
  have hraised : (p.view world).findMethod depth' owner ⟨d.name, parameters⟩ = .ok found :=
    TypeView.firstUp_raised hle hfound
  rw [hraised]
  exact hthen

theorem target_raised (hle : depth ≤ depth') (hok : p.target depth stub s = .ok m s') :
    p.target depth' stub s = .ok m s' := by
  unfold target at hok ⊢
  refine bind_eq_ok_mono (fun world _ => ?_) hok
  refine bind_eq_ok_mono fun bytes _ => ?_
  exact bind_eq_ok_mono fun d _ => callee_raised hle

/-! ## The way from stub to stub -/

/-- A number of hops, all of which lead to stubs. -/
inductive Hops (p : Provider σ τ) (depth : Nat) : Nat → Method τ → σ → Method τ → σ → Prop
  | start (stub : Method τ) (s : σ) : Hops p depth 0 stub s stub s
  | hop {n : Nat} {stub next last : Method τ} {s s₁ s' : σ} :
      p.target depth stub s = .ok next s₁ → next.isStub = true →
      Hops p depth n next s₁ last s' → Hops p depth (n + 1) stub s last s'

/-- How following a stub ends if so many hops are allowed, and after how many. -/
inductive Ends (p : Provider σ τ) (limits : Limits) (allowed : Nat) (stub : Method τ) (s : σ) :
    Nat → EStateM.Result Error σ (Method τ) → Prop
  | found {n : Nat} {last m : Method τ} {s₁ s' : σ} : n < allowed →
      p.Hops limits.hierarchyDepth n stub s last s₁ →
      p.target limits.hierarchyDepth last s₁ = .ok m s' → m.isStub = false →
      Ends p limits allowed stub s (n + 1) (.ok m s')
  | failed {n : Nat} {last : Method τ} {s₁ s' : σ} {source : Error} : n < allowed →
      p.Hops limits.hierarchyDepth n stub s last s₁ →
      p.target limits.hierarchyDepth last s₁ = .error source s' →
      Ends p limits allowed stub s (n + 1) (.error source s')
  | cutOff {last : Method τ} {s' : σ} : p.Hops limits.hierarchyDepth allowed stub s last s' →
      Ends p limits allowed stub s allowed (.error (.stubChainLimit limits.stubChain) s')

theorem Hops.raised (hhops : p.Hops depth n stub s last s') (hle : depth ≤ depth') :
    p.Hops depth' n stub s last s' := by
  induction hhops with
  | start stub s => exact .start stub s
  | hop htarget hstub _ ih => exact .hop (target_raised hle htarget) hstub ih

theorem Hops.follow_add (hhops : p.Hops limits.hierarchyDepth n stub s last s') (k : Nat) :
    p.follow limits (n + k) stub s = p.follow limits k last s' := by
  induction hhops with
  | start stub s => rw [Nat.zero_add]
  | @hop n stub next last s s₁ s' htarget hstub _ ih =>
      rw [Nat.add_right_comm, Provider.follow, bind_of_ok htarget, if_pos hstub, ih]

/-- The way decides how following ends. -/
theorem Ends.follow_eq (hends : p.Ends limits allowed stub s n result) :
    p.follow limits allowed stub s = result := by
  cases hends with
  | @found n last m s₁ s' hn hhops htarget hreal =>
      obtain ⟨k, rfl⟩ := Nat.exists_eq_add_of_lt hn
      rw [Nat.add_assoc, hhops.follow_add, follow_of_target_ok htarget hreal]
  | @failed n last s₁ s' source hn hhops htarget =>
      obtain ⟨k, rfl⟩ := Nat.exists_eq_add_of_lt hn
      rw [Nat.add_assoc, hhops.follow_add, follow_of_target_error htarget]
  | cutOff hhops =>
      have hfollow := hhops.follow_add 0
      rw [Nat.add_zero] at hfollow
      rw [hfollow]
      rfl

theorem Ends.le (hends : p.Ends limits allowed stub s n result) : n ≤ allowed := by
  cases hends with
  | found hn => exact hn
  | failed hn => exact hn
  | cutOff => exact Nat.le_refl _

theorem Ends.hop {next : Method τ} (htarget : p.target limits.hierarchyDepth stub s = .ok next s₁)
    (hstub : next.isStub = true) (hends : p.Ends limits allowed next s₁ n result) :
    p.Ends limits (allowed + 1) stub s (n + 1) result := by
  cases hends with
  | found hn hhops hlast hreal =>
      exact .found (Nat.succ_lt_succ hn) (.hop htarget hstub hhops) hlast hreal
  | failed hn hhops hlast =>
      exact .failed (Nat.succ_lt_succ hn) (.hop htarget hstub hhops) hlast
  | cutOff hhops => exact .cutOff (.hop htarget hstub hhops)

theorem exists_ends (p : Provider σ τ) (limits : Limits) (allowed : Nat) (stub : Method τ)
    (s : σ) : ∃ n, p.Ends limits allowed stub s n (p.follow limits allowed stub s) := by
  induction allowed generalizing stub s with
  | zero => exact ⟨0, .cutOff (.start stub s)⟩
  | succ allowed ih =>
      cases htarget : p.target limits.hierarchyDepth stub s with
      | error source s' =>
          rw [follow_of_target_error htarget]
          exact ⟨1, .failed (Nat.succ_pos _) (.start stub s) htarget⟩
      | ok next s₁ =>
          cases hstub : next.isStub with
          | false =>
              rw [follow_of_target_ok htarget hstub]
              exact ⟨1, .found (Nat.succ_pos _) (.start stub s) htarget hstub⟩
          | true =>
              obtain ⟨n, hends⟩ := ih next s₁
              rw [Provider.follow, bind_of_ok htarget, if_pos hstub]
              exact ⟨n + 1, hends.hop htarget hstub⟩

/-! ## Following under larger limits -/

theorem follow_raised (hdepth : limits.hierarchyDepth ≤ limits'.hierarchyDepth)
    (hallowed : allowed ≤ allowed') (hok : p.follow limits allowed stub s = .ok m s') :
    p.follow limits' allowed' stub s = .ok m s' := by
  obtain ⟨n, hends⟩ := exists_ends p limits allowed stub s
  rw [hok] at hends
  cases hends with
  | found hn hhops htarget hreal =>
      refine Ends.follow_eq (.found (Nat.lt_of_lt_of_le hn hallowed) (hhops.raised hdepth) ?_ hreal)
      exact target_raised hdepth htarget

theorem follow_failed (hdepth : limits'.hierarchyDepth = limits.hierarchyDepth)
    (hallowed : allowed ≤ allowed') (hsource : source ≠ .stubChainLimit limits.stubChain)
    (hfails : p.follow limits allowed stub s = .error source s') :
    p.follow limits' allowed' stub s = .error source s' := by
  obtain ⟨n, hends⟩ := exists_ends p limits allowed stub s
  rw [hfails] at hends
  cases hends with
  | failed hn hhops htarget =>
      rw [← hdepth] at hhops htarget
      exact Ends.follow_eq (.failed (Nat.lt_of_lt_of_le hn hallowed) hhops htarget)
  | cutOff => exact absurd rfl hsource

end Provider

/-- Whether an error says that the limit on stubs cut the way short. -/
def Error.IsCutOff (error : Error) : Prop :=
  ∃ text limit, error = .stubResolution text (.stubChainLimit limit)

namespace Resolver

variable {σ τ : Type} [DecidableEq τ] {p : Provider σ τ} {limits limits' : Limits} {c : Call τ}
  {s s' : Resolving σ τ} {m : Method τ} {found : Option (Method τ)} {error : Error}

/-! ## Answers under larger limits -/

theorem Call.found?_raised {world : σ} (hdepth : limits.hierarchyDepth ≤ limits'.hierarchyDepth)
    (hok : c.found? p limits world = .ok found) : c.found? p limits' world = .ok found := by
  cases c with
  | resolve type shape => exact TypeView.firstUp_raised hdepth hok
  | resolveMethod m => exact hok

theorem answer_raised (hdepth : limits.hierarchyDepth ≤ limits'.hierarchyDepth)
    (hchain : limits.stubChain ≤ limits'.stubChain) (hok : answer p limits c s = .ok found s') :
    answer p limits' c s = .ok found s' := by
  have hanswered := answered p limits c s
  rw [hok] at hanswered
  cases hanswered with
  | nothing hlookup => rw [answer_eq_of_found?, Call.found?_raised hdepth hlookup]
  | found hlookup hreal =>
      rw [answer_eq_of_found?, Call.found?_raised hdepth hlookup]
      exact answer_resolveMethod_of_not_isStub hreal
  | remembered hlookup hstub hknown =>
      rw [answer_eq_of_found?, Call.found?_raised hdepth hlookup]
      exact answer_resolveMethod_of_get? hstub hknown
  | followed hlookup hstub habsent hfollow =>
      rw [answer_of_absent (Call.found?_raised hdepth hlookup) hstub habsent, followAnew,
        Provider.follow_raised hdepth hchain hfollow]

/-- A failure that is not due to the limit on stubs does not depend on it. -/
theorem answer_failed (hdepth : limits'.hierarchyDepth = limits.hierarchyDepth)
    (hchain : limits.stubChain ≤ limits'.stubChain) (hcause : ¬error.IsCutOff)
    (hfails : answer p limits c s = .error error s') : answer p limits' c s = .error error s' := by
  have hlookup : c.found? p limits' s.world = c.found? p limits s.world := by
    cases c with
    | resolve type shape =>
        unfold Call.found?
        rw [hdepth]
    | resolveMethod m => rfl
  have hanswered := answered p limits c s
  rw [hfails] at hanswered
  cases hanswered with
  | unfindable herror => rw [answer_eq_of_found?, hlookup, herror]
  | @failed m source world hfound hstub habsent hfollow =>
      have hsource : source ≠ .stubChainLimit limits.stubChain := by
        rintro rfl
        exact hcause ⟨_, _, rfl⟩
      rw [answer_of_absent (hlookup.trans hfound) hstub habsent, followAnew,
        Provider.follow_failed hdepth hchain hsource hfollow]

end Resolver

open World

section

variable {w a w' : World} {limits : Limits} {depth limit : Nat} {stub m next : Method TypeRef}
  {stubs : List (Method TypeRef)} {s : Resolving World TypeRef} {source : Error}

/-! ## Ways that do not end -/

theorem ne_stubChainLimit_of_target (htarget : provider.target depth stub w = .error source w')
    (limit : Nat) : source ≠ .stubChainLimit limit := by
  have hfailure := Provider.failsOnly_target failsOnly_load (fun _ _ _ => isTypeLoad_of_classBytes)
    depth stub source w w' htarget
  exact hfailure.ne_stubChainLimit limit

theorem Resolver.cutOff_iff :
    (∃ text s', followAnew provider limits m s =
        .error (.stubResolution text (.stubChainLimit limit)) s') ↔
      limit = limits.stubChain ∧
        ∃ last w', provider.Hops limits.hierarchyDepth limits.stubChain m s.world last w' := by
  constructor
  · rintro ⟨text, s', hfails⟩
    obtain ⟨n, hends⟩ := provider.exists_ends limits limits.stubChain m s.world
    unfold followAnew at hfails
    generalize provider.follow limits limits.stubChain m s.world = result at hends hfails
    cases hends with
    | found => cases hfails
    | failed _ _ htarget =>
        injection hfails with herror
        injection herror with _ hsource
        exact absurd hsource (ne_stubChainLimit_of_target htarget limit)
    | @cutOff last w' hhops =>
        injection hfails with herror
        injection herror with _ hsource
        injection hsource with hlimit
        exact ⟨hlimit.symm, last, w', hhops⟩
  · rintro ⟨rfl, last, w', hhops⟩
    unfold followAnew
    rw [(Provider.Ends.cutOff hhops).follow_eq]
    exact ⟨_, _, rfl⟩

/-- Whether the hops from some stubs lead to these stubs again, as they do if the stubs
forward to each other in a circle. -/
def Provider.Endless {σ τ : Type} [DecidableEq τ] (p : Provider σ τ) (depth : Nat) (s : σ)
    (stubs : List (Method τ)) : Prop :=
  ∀ m ∈ stubs, m.isStub = true ∧ ∃ next ∈ stubs, answerOf (p.target depth m s) = .ok next

theorem knows_owner_of_target (hsound : w.registry.Sound)
    (htarget : answerOf (provider.target depth m w) = .ok next) : w.Knows m.owner := by
  cases hbytes : provider.classBytes w m.owner with
  | ok bytes => exact knows_of_classBytes hsound (.refl hsound) hbytes
  | error error =>
      rw [Provider.target_of_classBytes_error hbytes] at htarget
      cases htarget

/-- The hops go on for ever, although each may be made in a world that has grown. -/
theorem exists_hops_of_endless (hsound : w.registry.Sound)
    (hendless : provider.Endless depth w stubs) (n : Nat) (hgrows : w.Grows a) (hm : m ∈ stubs) :
    ∃ last w', provider.Hops depth n m a last w' := by
  induction n generalizing a m with
  | zero => exact ⟨m, a, .start m a⟩
  | succ n ih =>
      obtain ⟨-, next, hnext, hleads⟩ := hendless m hm
      have halike := alike_target hsound hgrows (.refl hsound) depth
        (knows_owner_of_target hsound hleads)
      have hleads' := halike.answerOf_eq.trans hleads
      have hgrows' := hgrows.trans halike.grows
      cases htarget : provider.target depth m a with
      | error error a' =>
          rw [htarget] at hleads'
          cases hleads'
      | ok found a' =>
          rw [htarget] at hleads' hgrows'
          cases hleads'
          obtain ⟨last, w', hhops⟩ := ih hgrows' hnext
          exact ⟨last, w', .hop htarget (hendless _ hnext).1 hhops⟩

end

namespace Resolver

theorem answer_overloads_f_zero {w : World} {t : TypeRef} {f long int h : Method TypeRef}
    (hhas : w.HasOverloads t) (hmethods : w.Overloads t f long int h) :
    answer provider ⟨0, 1⟩ (.resolveMethod f) ⟨w, .empty⟩ =
      .error (unresolved provider w f (.hierarchyCycle "T" 0)) ⟨w, .empty⟩ := by
  have hfollow : provider.follow ⟨0, 1⟩ 1 f w = .error (.hierarchyCycle "T" 0) w := by
    refine Provider.follow_of_target_error ?_ 0
    exact hmethods.target_f_zero hhas
  have hfound : Call.found? provider ⟨0, 1⟩ w (.resolveMethod f) = .ok (some f) := rfl
  rw [answer_of_absent hfound hmethods.isStub_f rfl, followAnew, hfollow]

/-- Larger limits leave every answer that is no failure as it is, and a larger limit on
stubs leaves every failure that it did not cause.  A stub of which nothing is remembered is
followed for at most as many hops as the limit on stubs allows, and the failure tells this
limit exactly if so many hops can be made and all lead to stubs.  So it does, whatever the
limit is, if the stub stands in a circle or leads into one. -/
theorem limits_only_cut_off (limits : Limits) (c : Call TypeRef) (s : Resolving World TypeRef) :
    (∀ limits' found s', limits.hierarchyDepth ≤ limits'.hierarchyDepth →
      limits.stubChain ≤ limits'.stubChain → answer provider limits c s = .ok found s' →
      answer provider limits' c s = .ok found s') ∧
    (∀ chain error s', limits.stubChain ≤ chain → ¬error.IsCutOff →
      answer provider limits c s = .error error s' →
      answer provider { limits with stubChain := chain } c s = .error error s') ∧
    ∀ m, c.found? provider limits s.world = .ok (some m) → m.isStub = true →
      s.cache.contains m.key = false →
      answer provider limits c s = followAnew provider limits m s ∧
      (∃ hops ≤ limits.stubChain, provider.Ends limits limits.stubChain m s.world hops
        (provider.follow limits limits.stubChain m s.world)) ∧
      (∀ limit,
        (∃ text s', answer provider limits c s =
          .error (.stubResolution text (.stubChainLimit limit)) s') ↔
        limit = limits.stubChain ∧ ∃ last w',
          provider.Hops limits.hierarchyDepth limits.stubChain m s.world last w') ∧
      (s.world.registry.Reachable → ∀ stubs, m ∈ stubs →
        provider.Endless limits.hierarchyDepth s.world stubs →
        ∃ text s', answer provider limits c s =
          .error (.stubResolution text (.stubChainLimit limits.stubChain)) s') := by
  refine ⟨?_, ?_, ?_⟩
  · intro limits' found s' hdepth hchain hok
    exact answer_raised hdepth hchain hok
  · intro chain error s' hchain hcause hfails
    refine answer_failed ?_ hchain hcause hfails
    rfl
  · intro m hfound hstub habsent
    rw [answer_of_absent hfound hstub habsent]
    refine ⟨rfl, ?_, fun limit => cutOff_iff, ?_⟩
    · obtain ⟨hops, hends⟩ := provider.exists_ends limits limits.stubChain m s.world
      exact ⟨hops, hends.le, hends⟩
    · intro hreachable stubs hm hendless
      have hsound := hreachable.sound
      exact cutOff_iff.mpr ⟨rfl, exists_hops_of_endless hsound hendless _ (.refl hsound) hm⟩

/-- In the class with overloads the stub `f` forwards to a method that is no stub, and the
stub `h` to itself. -/
theorem limits_only_cut_off_overloads :
    ∃ (w : World) (t : TypeRef) (f long : Method TypeRef), w.HasOverloads t ∧
      (∀ limits : Limits, 1 ≤ limits.hierarchyDepth → 1 ≤ limits.stubChain →
        answerOf (answer provider limits (.resolve t ⟨"f", []⟩) ⟨w, .empty⟩) =
          .ok (some long)) ∧
      (∃ text, ∀ chain, 1 ≤ chain →
        answerOf (answer provider ⟨0, chain⟩ (.resolveMethod f) ⟨w, .empty⟩) =
          .error (.stubResolution text (.hierarchyCycle "T" 0))) ∧
      ∀ limits : Limits, 1 ≤ limits.hierarchyDepth → ∃ text s',
        answer provider limits (.resolve t ⟨"h", []⟩) ⟨w, .empty⟩ =
          .error (.stubResolution text (.stubChainLimit limits.stubChain)) s' := by
  obtain ⟨w, t, hhas⟩ := exists_hasOverloads
  obtain ⟨f, long, _, h, hmethods⟩ := hhas.exists_overloads
  refine ⟨w, t, f, long, hhas, ?_, ?_, ?_⟩
  · intro limits hdepth hchain
    obtain ⟨hraised, -⟩ := limits_only_cut_off ⟨1, 1⟩ (.resolve t ⟨"f", []⟩) ⟨w, .empty⟩
    have hanswer := hraised limits _ _ hdepth hchain (answer_overloads_f hhas hmethods)
    rw [hanswer]
    rfl
  · obtain ⟨-, hfailed, -⟩ := limits_only_cut_off ⟨0, 1⟩ (.resolveMethod f) ⟨w, .empty⟩
    have hcause : ¬(unresolved provider w f (.hierarchyCycle "T" 0)).IsCutOff := by
      rintro ⟨text, limit, hsame⟩
      injection hsame with _ hsource
      cases hsource
    refine ⟨f.display w.nameOf, fun chain hchain => ?_⟩
    have hanswer := hfailed chain _ _ hchain hcause (answer_overloads_f_zero hhas hmethods)
    rw [hanswer]
    rfl
  · intro limits hdepth
    have hfound := found?_overloads_h hhas hmethods hdepth
    obtain ⟨-, -, hfollowed⟩ :=
      limits_only_cut_off limits (.resolve t ⟨"h", []⟩) ⟨w, .empty⟩
    obtain ⟨-, -, -, hcircle⟩ := hfollowed h hfound hmethods.isStub_h rfl
    apply hcircle hhas.reachable [h] (List.mem_singleton.mpr rfl)
    intro m hm
    rw [List.mem_singleton] at hm
    subst hm
    refine ⟨hmethods.isStub_h, m, List.mem_singleton.mpr rfl, ?_⟩
    rw [hmethods.target_h hhas hdepth]
    rfl

end Resolver

end Forwarding
