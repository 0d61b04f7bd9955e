import Forwarding.Proofs.Registry.ClassBytes
import Forwarding.Proofs.Resolver.Failing
import Forwarding.Proofs.Resolver.HopTarget
import Forwarding.Proofs.Resolver.Life

/-!
# What calls do to the cache

A call looks a method up, and only if that is a stub of which nothing is remembered
does it follow stubs.  It remembers where the stub leads, under the key of the stub
that it found first, and it remembers nothing else: no stub on the way, no method
that is no stub, no failure.  So a cache only grows, and a stub that could not be
resolved is followed again by the next call that comes to it.
-/

namespace Forwarding

namespace Cache

variable {κ ν : Type} [DecidableEq κ] {cache : Cache κ ν} {key key' : κ}

theorem entries_insert (habsent : cache.contains key = false) (value : ν) :
    (cache.insert key value).entries = cache.entries ++ [(key, value)] := by
  -- `insert` drops what was there for the key, and there was nothing.
  have hother : ∀ entry ∈ cache.entries, entry.1 ≠ key := by
    intro entry hentry hkey
    have hfound : (cache.entries.find? (·.1 = key)).isSome := by
      rw [List.find?_isSome]
      exact ⟨entry, hentry, decide_eq_true hkey⟩
    rw [contains, get?, Option.isSome_map, hfound] at habsent
    cases habsent
  rw [insert, List.filter_eq_self.mpr]
  intro entry hentry
  exact decide_eq_true (hother entry hentry)

theorem contains_insert (hkey : key ≠ key') (value : ν) :
    (cache.insert key value).contains key' = cache.contains key' := by
  rw [contains, get?_insert, if_neg hkey, contains]

theorem contains_eq_false_iff : cache.contains key = false ↔ cache.get? key = none := by
  rw [contains, Option.isSome_eq_false_iff, Option.isNone_iff_eq_none]

end Cache

namespace Resolver

variable {σ τ : Type} [DecidableEq τ] {p : Provider σ τ} {limits : Limits} {c : Call τ}
  {s : Resolving σ τ} {key : StubKey τ} {m value : Method τ} {error : Error}
  {events : List (Event σ τ)}

/-! ## What a call can do -/

/-- The method that a call comes to before it follows any stub. -/
def Call.found? (p : Provider σ τ) (limits : Limits) (world : σ) :
    Call τ → Except Error (Option (Method τ))
  | .resolve type shape => (p.view world).findMethod limits.hierarchyDepth type shape
  | .resolveMethod m => .ok (some m)

/-- The error of a stub that cannot be followed. -/
def unresolved (p : Provider σ τ) (world : σ) (stub : Method τ) (source : Error) : Error :=
  .stubResolution (stub.display (p.view world).name) source

/-- Following a stub in the world as it is, without a look at what is remembered. -/
def followAnew (p : Provider σ τ) (limits : Limits) (stub : Method τ) :
    EStateM Error (Resolving σ τ) (Option (Method τ)) := fun s =>
  match p.follow limits limits.stubChain stub s.world with
  | .ok value world => .ok (some value) ⟨world, s.cache.insert stub.key value⟩
  | .error source world => .error (unresolved p world stub source) { s with world }

/-- Every outcome of a call, by what it comes to and what is remembered of that. -/
inductive Answered (p : Provider σ τ) (limits : Limits) (c : Call τ) (s : Resolving σ τ) :
    EStateM.Result Error (Resolving σ τ) (Option (Method τ)) → Prop
  | unfindable {error : Error} : c.found? p limits s.world = .error error →
      Answered p limits c s (.error error s)
  | nothing : c.found? p limits s.world = .ok none → Answered p limits c s (.ok none s)
  | found {m : Method τ} : c.found? p limits s.world = .ok (some m) → m.isStub = false →
      Answered p limits c s (.ok (some m) s)
  | remembered {m value : Method τ} : c.found? p limits s.world = .ok (some m) →
      m.isStub = true → s.cache.get? m.key = some value →
      Answered p limits c s (.ok (some value) s)
  | followed {m value : Method τ} {world : σ} : c.found? p limits s.world = .ok (some m) →
      m.isStub = true → s.cache.contains m.key = false →
      p.follow limits limits.stubChain m s.world = .ok value world →
      Answered p limits c s (.ok (some value) ⟨world, s.cache.insert m.key value⟩)
  | failed {m : Method τ} {source : Error} {world : σ} :
      c.found? p limits s.world = .ok (some m) → m.isStub = true →
      s.cache.contains m.key = false →
      p.follow limits limits.stubChain m s.world = .error source world →
      Answered p limits c s (.error (unresolved p world m source) { s with world })

theorem answer_eq_of_found? (p : Provider σ τ) (limits : Limits) (c : Call τ)
    (s : Resolving σ τ) :
    answer p limits c s =
      match c.found? p limits s.world with
      | .error error => .error error s
      | .ok none => .ok none s
      | .ok (some m) => answer p limits (.resolveMethod m) s := by
  cases c with
  | resolve type shape => exact answer_resolve p limits type shape s
  | resolveMethod m => rfl

theorem answer_resolveMethod_of_not_isStub (hstub : m.isStub = false) :
    answer p limits (.resolveMethod m) s = .ok (some m) s := by
  change EStateM.map some (resolveMethod p limits m) s = _
  unfold EStateM.map resolveMethod
  rw [hstub]
  rfl

theorem answer_resolveMethod_of_get? (hstub : m.isStub = true)
    (hknown : s.cache.get? m.key = some value) :
    answer p limits (.resolveMethod m) s = .ok (some value) s := by
  change EStateM.map some (resolveMethod p limits m) s = _
  unfold EStateM.map resolveMethod
  rw [if_pos hstub, hknown]

theorem answer_resolveMethod_of_absent (hstub : m.isStub = true)
    (habsent : s.cache.contains m.key = false) :
    answer p limits (.resolveMethod m) s = followAnew p limits m s := by
  change EStateM.map some (resolveMethod p limits m) s = _
  unfold EStateM.map resolveMethod followAnew
  rw [if_pos hstub, Cache.contains_eq_false_iff.mp habsent]
  dsimp only
  cases p.follow limits limits.stubChain m s.world <;> rfl

theorem answered_of_absent (hfound : c.found? p limits s.world = .ok (some m))
    (hstub : m.isStub = true) (habsent : s.cache.contains m.key = false) :
    Answered p limits c s (followAnew p limits m s) := by
  unfold followAnew
  cases hfollow : p.follow limits limits.stubChain m s.world with
  | ok value world => exact .followed hfound hstub habsent hfollow
  | error source world => exact .failed hfound hstub habsent hfollow

theorem answered (p : Provider σ τ) (limits : Limits) (c : Call τ) (s : Resolving σ τ) :
    Answered p limits c s (answer p limits c s) := by
  rw [answer_eq_of_found?]
  cases hfound : c.found? p limits s.world with
  | error error => exact .unfindable hfound
  | ok found =>
      cases found with
      | none => exact .nothing hfound
      | some m =>
          dsimp only
          cases hstub : m.isStub with
          | false =>
              rw [answer_resolveMethod_of_not_isStub hstub]
              exact .found hfound hstub
          | true =>
              cases hknown : s.cache.get? m.key with
              | some value =>
                  rw [answer_resolveMethod_of_get? hstub hknown]
                  exact .remembered hfound hstub hknown
              | none =>
                  have habsent := Cache.contains_eq_false_iff.mpr hknown
                  rw [answer_resolveMethod_of_absent hstub habsent]
                  exact answered_of_absent hfound hstub habsent

theorem answer_of_absent (hfound : c.found? p limits s.world = .ok (some m))
    (hstub : m.isStub = true) (habsent : s.cache.contains m.key = false) :
    answer p limits c s = followAnew p limits m s := by
  rw [answer_eq_of_found?, hfound]
  exact answer_resolveMethod_of_absent hstub habsent

/-! ## New entries -/

/-- Whether a call comes to a stub that is remembered by the key. -/
def Call.Asks (p : Provider σ τ) (limits : Limits) (key : StubKey τ) (world : σ)
    (c : Call τ) : Prop :=
  ∃ m, c.found? p limits world = .ok (some m) ∧ m.isStub = true ∧ m.key = key

/-- Whether a call is to be remembered: it comes to a stub of which nothing is
remembered, and it returns a method. -/
structure Adds (p : Provider σ τ) (limits : Limits) (c : Call τ) (s : Resolving σ τ)
    (key : StubKey τ) (value : Method τ) : Prop where
  asks : c.Asks p limits key s.world
  absent : s.cache.contains key = false
  returns : answerOf (answer p limits c s) = .ok (some value)

theorem Adds.cache_eq (hadds : Adds p limits c s key value) :
    (stateAfter (answer p limits c s)).cache = s.cache.insert key value := by
  obtain ⟨m, hfound, hstub, rfl⟩ := hadds.asks
  have hreturns := hadds.returns
  rw [answer_of_absent hfound hstub hadds.absent] at hreturns ⊢
  unfold followAnew at hreturns ⊢
  cases hfollow : p.follow limits limits.stubChain m s.world with
  | ok found world =>
      rw [hfollow] at hreturns
      cases hreturns
      rfl
  | error source world =>
      rw [hfollow] at hreturns
      cases hreturns

/-- A call changes the cache by what it adds or not at all. -/
theorem adds_or_cache_eq (p : Provider σ τ) (limits : Limits) (c : Call τ)
    (s : Resolving σ τ) :
    (∃ key value, Adds p limits c s key value) ∨
      (stateAfter (answer p limits c s)).cache = s.cache := by
  have hanswered := answered p limits c s
  generalize hresult : answer p limits c s = result at hanswered ⊢
  cases hanswered with
  | @followed m value world hfound hstub habsent _ =>
      refine Or.inl ⟨m.key, value, ⟨m, hfound, hstub, rfl⟩, habsent, ?_⟩
      rw [hresult]
      rfl
  | _ => exact Or.inr rfl

/-! ## Failures -/

/-- What a call fails with: the lookup goes too deep, or the stub that it comes to, of
which nothing is remembered, cannot be followed. -/
inductive CallFails (p : Provider σ τ) (limits : Limits) (c : Call τ) (s : Resolving σ τ) :
    Error → Prop
  | tooDeep {type : τ} {shape : Shape τ} : c = .resolve type shape →
      c.found? p limits s.world = .error ((p.view s.world).tooDeep limits.hierarchyDepth type) →
      CallFails p limits c s
        (.hierarchyCycle ((p.view s.world).name type) limits.hierarchyDepth)
  | unresolved {m : Method τ} {source : Error} : c.found? p limits s.world = .ok (some m) →
      m.isStub = true → s.cache.contains m.key = false → source.IsPlain →
      CallFails p limits c s
        (unresolved p (stateAfter (answer p limits c s)).world m source)

theorem callFails (hp : p.Plain) (hfails : answerOf (answer p limits c s) = .error error) :
    CallFails p limits c s error := by
  have hanswered := answered p limits c s
  generalize hresult : answer p limits c s = result at hfails hanswered
  cases hanswered with
  | unfindable hlookup =>
      cases hfails
      cases c with
      | resolveMethod m => cases hlookup
      | resolve type shape =>
          have hfailure := TypeView.eq_failure_of_firstUp hlookup
          rw [hfailure] at hlookup ⊢
          exact .tooDeep rfl hlookup
  | @failed m source world hfound hstub habsent hfollow =>
      cases hfails
      have hplain := hp.follow limits limits.stubChain m source s.world world hfollow
      have hnamed : CallFails p limits c s _ := .unresolved hfound hstub habsent hplain
      rwa [hresult] at hnamed
  | _ => cases hfails

/-! ## Runs -/

/-- A resolver after some more events. -/
def onward (p : Provider σ τ) (limits : Limits) (s : Resolving σ τ)
    (events : List (Event σ τ)) : Resolving σ τ :=
  events.foldl (happen p limits) s

/-- Whether no call of a run comes to a stub that is remembered by the key. -/
def NeverAsks (p : Provider σ τ) (limits : Limits) (key : StubKey τ) :
    Resolving σ τ → List (Event σ τ) → Prop
  | _, [] => True
  | s, .call c :: rest =>
      ¬c.Asks p limits key s.world ∧
        NeverAsks p limits key (stateAfter (answer p limits c s)) rest
  | s, .change f :: rest => NeverAsks p limits key { s with world := f s.world } rest

theorem entries_prefix_happen (s : Resolving σ τ) (event : Event σ τ) :
    s.cache.entries <+: (happen p limits s event).cache.entries := by
  cases event with
  | change f => exact List.prefix_rfl
  | call c =>
      change _ <+: (stateAfter (answer p limits c s)).cache.entries
      cases adds_or_cache_eq p limits c s with
      | inr hsame => exact (congrArg Cache.entries hsame) ▸ List.prefix_rfl
      | inl hadds =>
          obtain ⟨key, value, hadds⟩ := hadds
          rw [hadds.cache_eq, Cache.entries_insert hadds.absent]
          exact List.prefix_append _ _

theorem entries_prefix_onward (s : Resolving σ τ) (events : List (Event σ τ)) :
    s.cache.entries <+: (onward p limits s events).cache.entries := by
  induction events generalizing s with
  | nil => exact List.prefix_rfl
  | cons event rest ih => exact (entries_prefix_happen s event).trans (ih _)

theorem absent_of_not_asks (habsent : s.cache.contains key = false)
    (hasks : ¬c.Asks p limits key s.world) :
    (stateAfter (answer p limits c s)).cache.contains key = false := by
  cases adds_or_cache_eq p limits c s with
  | inr hsame => rwa [hsame]
  | inl hadds =>
      obtain ⟨key', value, hadds⟩ := hadds
      have hkey : key' ≠ key := by
        rintro rfl
        exact hasks hadds.asks
      rwa [hadds.cache_eq, Cache.contains_insert hkey]

theorem NeverAsks.absent (hnever : NeverAsks p limits key s events)
    (habsent : s.cache.contains key = false) :
    (onward p limits s events).cache.contains key = false := by
  induction events generalizing s with
  | nil => exact habsent
  | cons event rest ih =>
      cases event with
      | call c => exact ih hnever.2 (absent_of_not_asks habsent hnever.1)
      | change f => exact ih hnever habsent

/-- A call that fails for a stub finds nothing remembered of it and leaves nothing. -/
theorem absent_of_fails (hasks : c.Asks p limits key s.world)
    (hfails : answerOf (answer p limits c s) = .error error) :
    (stateAfter (answer p limits c s)).cache.contains key = false := by
  obtain ⟨m, hm, -, rfl⟩ := hasks
  -- Of all outcomes with an error only the one of a stub that was followed can be meant.
  have hanswered := answered p limits c s
  generalize answer p limits c s = result at hfails hanswered ⊢
  cases hanswered with
  | unfindable hlookup =>
      rw [hm] at hlookup
      cases hlookup
  | failed hfound _ habsent _ =>
      rw [hm] at hfound
      cases hfound
      exact habsent
  | _ => cases hfails

/-! ## Calls on overloads -/

section

open World

variable {w w' : World} {t : TypeRef} {m f long int h : Method TypeRef}
  {cache : StubCache TypeRef} {profile : Profile} {className : String}

theorem unresolved_of_lists (hlists : w.Lists t profile m) (hnone : profile.parameters = [])
    (hname : w'.nameOf t = className) (source : Error) :
    unresolved provider w' m source =
      .stubResolution (className ++ "." ++ (profile.name ++ "()")) source := by
  have hdisplay : m.display w'.nameOf = className ++ "." ++ (profile.name ++ "()") := by
    unfold Method.display StubKey.display Method.key
    dsimp only
    rw [hlists.owner, hname, hlists.shape hnone]
    simp [Shape.display, String.append_assoc]
  exact congrArg (Error.stubResolution · source) hdisplay

theorem nameOf_setBytes (w : World) (name : String) (bytes : Array UInt8) (t : TypeRef) :
    World.nameOf { w with registry := w.registry.setBytes name bytes } t = w.nameOf t := by
  cases t <;> rfl

/-- If the bytes in which a stub would be found are gone, following it ends at once. -/
theorem follow_of_cleared (limits : Limits) (k : Nat) (hlists : w.Lists t profile m)
    (hname : w.nameOf t = className)
    (hcleared : w' = { w with registry := w.registry.setBytes className #[] }) :
    provider.follow limits (k + 1) m w' = .error .outOfBounds w' := by
  have hbytes : provider.classBytes w' m.owner = .ok #[] := by
    change w'.registry.bytesOf (w'.nameOf m.owner) = _
    rw [hcleared, nameOf_setBytes, hlists.owner, hname, Registry.bytesOf_setBytes, if_pos rfl]
  exact Provider.follow_of_target_error (Provider.target_of_find_error hbytes rfl) k

theorem absent_overloads_h (hmethods : w.Overloads t f long int h) (value : Method TypeRef) :
    (Cache.empty.insert f.key value).contains h.key = false := by
  have hkeys : f.key ≠ h.key := by
    intro hkey
    have hname : f.shape.name = h.shape.name := congrArg (·.shape.name) hkey
    rw [hmethods.f.name, hmethods.h.name] at hname
    revert hname
    decide
  exact (Cache.contains_insert hkeys value).trans rfl

variable (hhas : w.HasOverloads t) (hmethods : w.Overloads t f long int h)
include hhas hmethods

theorem found?_overloads_f {limits : Limits} (hdepth : 0 < limits.hierarchyDepth) :
    Call.found? provider limits w (.resolve t ⟨"f", []⟩) = .ok (some f) :=
  hhas.findMethod (by decide) hmethods.declared?_f hdepth

theorem found?_overloads_h {limits : Limits} (hdepth : 0 < limits.hierarchyDepth) :
    Call.found? provider limits w (.resolve t ⟨"h", []⟩) = .ok (some h) :=
  hhas.findMethod (by decide) hmethods.declared?_h hdepth

theorem answer_overloads_f :
    answer provider ⟨1, 1⟩ (.resolve t ⟨"f", []⟩) ⟨w, .empty⟩ =
      .ok (some long) ⟨w, Cache.empty.insert f.key long⟩ := by
  have hfound : Call.found? provider ⟨1, 1⟩ w (.resolve t ⟨"f", []⟩) = .ok (some f) :=
    found?_overloads_f hhas hmethods Nat.one_pos
  have hfollow : provider.follow ⟨1, 1⟩ 1 f w = .ok long w :=
    Provider.follow_of_target_ok (hmethods.target_f hhas Nat.one_pos) hmethods.isStub_long 0
  rw [answer_of_absent hfound hmethods.isStub_f rfl, followAnew, hfollow]

theorem answer_overloads_h (habsent : cache.contains h.key = false) :
    answer provider ⟨1, 1⟩ (.resolve t ⟨"h", []⟩) ⟨w, cache⟩ =
      .error (.stubResolution "T.h()" (.stubChainLimit 1)) ⟨w, cache⟩ := by
  have hfollow : provider.follow ⟨1, 1⟩ 1 h w = .error (.stubChainLimit 1) w := by
    rw [Provider.follow, bind_of_ok (hmethods.target_h hhas Nat.one_pos),
      if_pos hmethods.isStub_h]
    rfl
  have hfound : Call.found? provider ⟨1, 1⟩ w (.resolve t ⟨"h", []⟩) = .ok (some h) :=
    found?_overloads_h hhas hmethods Nat.one_pos
  rw [answer_of_absent hfound hmethods.isStub_h habsent, followAnew, hfollow]
  dsimp only
  rw [unresolved_of_lists hmethods.h rfl hhas.name]
  rfl

end

/-- A call adds one entry if it comes to a stub of which nothing is remembered and
returns, and otherwise it leaves the cache as it is; nothing that happens ever changes
or removes an entry.  It fails in its first lookup, or with one error that names the
stub and has a cause that is no such error again.  After such a failure the next call
that comes to a stub with this key, whatever has happened by then, follows the stub in
the world as it then is. -/
theorem cache_framed (limits : Limits) (s : Resolving World TypeRef) (c : Call TypeRef) :
    (∀ key value, Adds World.provider limits c s key value →
      (stateAfter (answer World.provider limits c s)).cache.entries =
        s.cache.entries ++ [(key, value)]) ∧
    ((∀ key value, ¬Adds World.provider limits c s key value) →
      (stateAfter (answer World.provider limits c s)).cache = s.cache) ∧
    (∀ events, s.cache.entries <+: (onward World.provider limits s events).cache.entries) ∧
    ∀ error, answerOf (answer World.provider limits c s) = .error error →
      CallFails World.provider limits c s error ∧
      ∀ key events next m, c.Asks World.provider limits key s.world →
        NeverAsks World.provider limits key (stateAfter (answer World.provider limits c s))
          events →
        let s' := onward World.provider limits s (.call c :: events)
        Call.found? World.provider limits s'.world next = .ok (some m) → m.isStub = true →
          m.key = key →
          answer World.provider limits next s' = followAnew World.provider limits m s' := by
  refine ⟨?_, ?_, entries_prefix_onward s, ?_⟩
  · intro key value hadds
    rw [hadds.cache_eq, Cache.entries_insert hadds.absent]
  · intro hnone
    apply (adds_or_cache_eq World.provider limits c s).resolve_left
    rintro ⟨key, value, hadds⟩
    exact hnone key value hadds
  · intro error hfails
    refine ⟨callFails World.plain_provider hfails, ?_⟩
    intro key events next m hasks hnever s' hfound hstub hkey
    have habsent := hnever.absent (absent_of_fails hasks hfails)
    rw [← hkey] at habsent
    exact answer_of_absent hfound hstub habsent

/-- A call that comes to the stub `f` adds an entry for it.  The stub `h`, which calls itself,
is followed in vain, and once more when there are no class bytes left to find it in. -/
theorem cache_framed_overloads :
    ∃ (w : World) (t : TypeRef) (f long h : Method TypeRef), w.HasOverloads t ∧
      let clear (world : World) : World :=
        { world with registry := world.registry.setBytes "T" #[] }
      let c : Call TypeRef := .resolve t ⟨"f", []⟩
      let c' : Call TypeRef := .resolve t ⟨"h", []⟩
      let s : Resolving World TypeRef := ⟨w, .empty⟩
      let s' := stateAfter (answer World.provider ⟨1, 1⟩ c s)
      Adds World.provider ⟨1, 1⟩ c s f.key long ∧ s'.cache.entries = [(f.key, long)] ∧
      answerOf (answer World.provider ⟨1, 1⟩ c' s') =
        .error (.stubResolution "T.h()" (.stubChainLimit 1)) ∧
      (stateAfter (answer World.provider ⟨1, 1⟩ c' s')).cache = s'.cache ∧
      answerOf (answer World.provider ⟨1, 1⟩ (.resolveMethod h)
          (onward World.provider ⟨1, 1⟩ s' [.call c', .change clear])) =
        .error (.stubResolution "T.h()" .outOfBounds) := by
  obtain ⟨w, t, hhas⟩ := World.exists_hasOverloads
  obtain ⟨f, long, _, h, hmethods⟩ := hhas.exists_overloads
  refine ⟨w, t, f, long, h, hhas, ?_⟩
  intro clear c c' s s'
  have hanswer := answer_overloads_f hhas hmethods
  have hstate : s' = ⟨w, Cache.empty.insert f.key long⟩ := congrArg stateAfter hanswer
  have hadds : Adds World.provider ⟨1, 1⟩ c s f.key long :=
    ⟨⟨f, found?_overloads_f hhas hmethods Nat.one_pos, hmethods.isStub_f, rfl⟩, rfl,
      congrArg answerOf hanswer⟩
  obtain ⟨hadded, -⟩ := cache_framed ⟨1, 1⟩ s c
  refine ⟨hadds, hadded _ _ hadds, ?_⟩
  -- The stubs have different keys, so nothing is remembered of `h`.
  have hfailure := answer_overloads_h hhas hmethods (absent_overloads_h hmethods long)
  rw [hstate]
  have hfails := congrArg answerOf hfailure
  obtain ⟨-, hunchanged, -, hfailing⟩ := cache_framed ⟨1, 1⟩ ⟨w, Cache.empty.insert f.key long⟩ c'
  refine ⟨hfails, hunchanged fun key value hadds' => ?_, ?_⟩
  · have hreturns := hadds'.returns
    rw [hfailure] at hreturns
    cases hreturns
  have hagain := (hfailing _ hfails).2 h.key [.change clear] (.resolveMethod h) h
    ⟨h, found?_overloads_h hhas hmethods Nat.one_pos, hmethods.isStub_h, rfl⟩ trivial rfl
    hmethods.isStub_h rfl
  have honward : onward World.provider ⟨1, 1⟩ ⟨w, Cache.empty.insert f.key long⟩
      [.call c', .change clear] = ⟨clear w, Cache.empty.insert f.key long⟩ := by
    unfold onward
    rw [List.foldl_cons, happen, hfailure]
    rfl
  have hname : (clear w).nameOf t = "T" := (nameOf_setBytes w "T" #[] t).trans hhas.name
  rw [hagain, honward, followAnew, follow_of_cleared ⟨1, 1⟩ 0 hmethods.h hhas.name rfl]
  dsimp only
  rw [unresolved_of_lists hmethods.h rfl hname]
  rfl

end Resolver

end Forwarding
