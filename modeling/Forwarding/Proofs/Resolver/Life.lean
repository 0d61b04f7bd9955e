import Forwarding.Proofs.Outcome
import Forwarding.Resolver.Basic

/-!
# The life of a resolver

A resolver is called many times, and between the calls anything may happen to
the world that it works in.  Its cache changes in calls only.
-/

namespace Forwarding

namespace Resolver

variable {σ τ : Type}

inductive Call (τ : Type)
  | resolve (type : τ) (shape : Shape τ)
  | resolveMethod (method : Method τ)

inductive Event (σ τ : Type)
  | call (c : Call τ)
  /-- Something changes the world. -/
  | change (f : σ → σ)

variable [DecidableEq τ]

def answer (p : Provider σ τ) (limits : Limits) :
    Call τ → EStateM Error (Resolving σ τ) (Option (Method τ))
  | .resolve type shape => resolve p limits type shape
  | .resolveMethod method => some <$> resolveMethod p limits method

def happen (p : Provider σ τ) (limits : Limits) (s : Resolving σ τ) :
    Event σ τ → Resolving σ τ
  | .call c => stateAfter (answer p limits c s)
  | .change f => { s with world := f s.world }

/-- A new resolver after some events. -/
def live (p : Provider σ τ) (limits : Limits) (world : σ)
    (events : List (Event σ τ)) : Resolving σ τ :=
  events.foldl (happen p limits) ⟨world, .empty⟩

/-- What holds of the empty cache and is kept by every call holds of the cache
all the time. -/
theorem cache_of_live {p : Provider σ τ} {limits : Limits}
    {Good : StubCache τ → Prop} (hempty : Good .empty)
    (hcall : ∀ c s, Good s.cache → Good (stateAfter (answer p limits c s)).cache)
    (world : σ) (events : List (Event σ τ)) :
    Good (live p limits world events).cache := by
  suffices hfrom : ∀ s : Resolving σ τ, Good s.cache →
      Good (events.foldl (happen p limits) s).cache from hfrom _ hempty
  induction events with
  | nil => exact fun _ hgood => hgood
  | cons event rest ih =>
      intro s hgood
      cases event with
      | call c => exact ih _ (hcall c s hgood)
      | change f => exact ih _ hgood

/-! ## The answer to a call -/

theorem answer_resolve (p : Provider σ τ) (limits : Limits) (type : τ)
    (shape : Shape τ) (s : Resolving σ τ) :
    answer p limits (.resolve type shape) s =
      match (p.view s.world).findMethod limits.hierarchyDepth type shape with
      | .error error => .error error s
      | .ok none => .ok none s
      | .ok (some found) => answer p limits (.resolveMethod found) s := by
  change Resolver.resolve p limits type shape s = _
  unfold Resolver.resolve
  rw [bind_of_ok (get_apply s)]
  cases (p.view s.world).findMethod limits.hierarchyDepth type shape with
  | error error => rfl
  | ok found => cases found <;> rfl

end Resolver

end Forwarding
