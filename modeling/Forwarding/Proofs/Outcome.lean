/-!
# Outcomes of sequenced operations

A sequence succeeds when its parts do, one after the other, and fails where
the first of them fails.  These lemmas take a sequence apart by its outcome.
-/

namespace Forwarding

def stateAfter {ε σ α : Type} : EStateM.Result ε σ α → σ
  | .ok _ s => s
  | .error _ s => s

def answerOf {ε σ α : Type} : EStateM.Result ε σ α → Except ε α
  | .ok a _ => .ok a
  | .error e _ => .error e

section Stateful

variable {ε σ α β : Type}

theorem bind_eq_ok {x : EStateM ε σ α} {f : α → EStateM ε σ β} {b : β} {s s' : σ} :
    (x >>= f) s = .ok b s' ↔ ∃ a s₁, x s = .ok a s₁ ∧ f a s₁ = .ok b s' := by
  change EStateM.bind x f s = _ ↔ _
  unfold EStateM.bind
  cases x s <;> simp [and_assoc]

theorem bind_eq_error {x : EStateM ε σ α} {f : α → EStateM ε σ β} {e : ε} {s s' : σ} :
    (x >>= f) s = .error e s' ↔
      x s = .error e s' ∨ ∃ a s₁, x s = .ok a s₁ ∧ f a s₁ = .error e s' := by
  change EStateM.bind x f s = _ ↔ _
  unfold EStateM.bind
  cases x s <;> simp [and_assoc]

theorem bind_of_ok {x : EStateM ε σ α} {f : α → EStateM ε σ β} {a : α} {s s₁ : σ}
    (hx : x s = .ok a s₁) : (x >>= f) s = f a s₁ := by
  change EStateM.bind x f s = _
  unfold EStateM.bind
  rw [hx]

theorem bind_congr_left {x y : EStateM ε σ α} {f : α → EStateM ε σ β} {s : σ}
    (hxy : x s = y s) : (x >>= f) s = (y >>= f) s := by
  change EStateM.bind x f s = EStateM.bind y f s
  unfold EStateM.bind
  rw [hxy]

theorem bind_eq_ok_mono {x : EStateM ε σ α} {f g : α → EStateM ε σ β} {b : β} {s s' : σ}
    (hfg : ∀ a s₁, f a s₁ = .ok b s' → g a s₁ = .ok b s') (hok : (x >>= f) s = .ok b s') :
    (x >>= g) s = .ok b s' := by
  obtain ⟨a, s₁, hx, hf⟩ := bind_eq_ok.mp hok
  exact bind_eq_ok.mpr ⟨a, s₁, hx, hfg a s₁ hf⟩

theorem map_eq_ok {f : α → β} {x : EStateM ε σ α} {b : β} {s s' : σ} :
    (f <$> x) s = .ok b s' ↔ ∃ a, x s = .ok a s' ∧ f a = b := by
  change EStateM.map f x s = _ ↔ _
  unfold EStateM.map
  cases x s <;> simp [and_assoc, and_comm]

theorem map_eq_error {f : α → β} {x : EStateM ε σ α} {e : ε} {s s' : σ} :
    (f <$> x) s = .error e s' ↔ x s = .error e s' := by
  change EStateM.map f x s = _ ↔ _
  unfold EStateM.map
  cases x s <;> simp

theorem answerOf_map (f : α → β) (x : EStateM ε σ α) (s : σ) :
    answerOf ((f <$> x) s) = (answerOf (x s)).map f := by
  change answerOf (EStateM.map f x s) = _
  unfold EStateM.map
  cases x s <;> rfl

theorem stateAfter_map (f : α → β) (x : EStateM ε σ α) (s : σ) :
    stateAfter ((f <$> x) s) = stateAfter (x s) := by
  change stateAfter (EStateM.map f x s) = _
  unfold EStateM.map
  cases x s <;> rfl

theorem get_apply (s : σ) : (get : EStateM ε σ σ) s = .ok s s := rfl

/-! ## Kept properties -/

/-- Whether an operation keeps a property of the state, also when it fails. -/
def Keeps (P : σ → Prop) (x : EStateM ε σ α) : Prop :=
  ∀ s, P s → P (stateAfter (x s))

variable {P : σ → Prop}

theorem keeps_pure (a : α) : Keeps P (pure a : EStateM ε σ α) :=
  fun _ hs => hs

theorem keeps_throw (e : ε) : Keeps P (throw e : EStateM ε σ α) :=
  fun _ hs => hs

theorem keeps_get : Keeps P (get : EStateM ε σ σ) :=
  fun _ hs => hs

theorem keeps_modify {f : σ → σ} (hf : ∀ s, P s → P (f s)) :
    Keeps P (modify f : EStateM ε σ PUnit) :=
  hf

theorem Keeps.bind {x : EStateM ε σ α} {f : α → EStateM ε σ β} (hx : Keeps P x)
    (hf : ∀ a, Keeps P (f a)) : Keeps P (x >>= f) := by
  intro s hs
  have hkept := hx s hs
  cases hresult : x s with
  | ok a s₁ =>
      rw [hresult] at hkept
      rw [bind_of_ok hresult]
      exact hf a s₁ hkept
  | error e s₁ =>
      rw [hresult] at hkept
      rw [bind_eq_error.mpr (Or.inl hresult)]
      exact hkept

theorem Keeps.map {f : α → β} {x : EStateM ε σ α} (hx : Keeps P x) : Keeps P (f <$> x) := by
  intro s hs
  rw [stateAfter_map]
  exact hx s hs

/-! ## Restricted failures -/

/-- Whether an operation has no errors but those with a property. -/
def FailsOnly (Q : ε → Prop) (x : EStateM ε σ α) : Prop :=
  ∀ e s s', x s = .error e s' → Q e

variable {Q : ε → Prop}

theorem failsOnly_pure (a : α) : FailsOnly Q (pure a : EStateM ε σ α) :=
  fun _ _ _ hfails => nomatch hfails

theorem failsOnly_throw {e : ε} (he : Q e) : FailsOnly Q (throw e : EStateM ε σ α) := by
  intro _ _ _ hfails
  cases hfails
  exact he

theorem failsOnly_get : FailsOnly Q (get : EStateM ε σ σ) :=
  fun _ _ _ hfails => nomatch hfails

theorem FailsOnly.bind {x : EStateM ε σ α} {f : α → EStateM ε σ β} (hx : FailsOnly Q x)
    (hf : ∀ a, FailsOnly Q (f a)) : FailsOnly Q (x >>= f) := by
  intro e s s' hfails
  cases bind_eq_error.mp hfails with
  | inl hfirst => exact hx e s s' hfirst
  | inr hsecond =>
      obtain ⟨a, s₁, -, hthen⟩ := hsecond
      exact hf a e s₁ s' hthen

theorem FailsOnly.imp {Q' : ε → Prop} {x : EStateM ε σ α} (hx : FailsOnly Q x)
    (hQ : ∀ e, Q e → Q' e) : FailsOnly Q' x :=
  fun e s s' hfails => hQ e (hx e s s' hfails)

theorem FailsOnly.map {f : α → β} {x : EStateM ε σ α} (hx : FailsOnly Q x) :
    FailsOnly Q (f <$> x) :=
  fun e s s' hfails => hx e s s' (map_eq_error.mp hfails)

end Stateful

section Exceptional

variable {ε α β : Type}

theorem except_bind_eq_ok {x : Except ε α} {f : α → Except ε β} {b : β} :
    (x >>= f) = .ok b ↔ ∃ a, x = .ok a ∧ f a = .ok b := by
  change Except.bind x f = _ ↔ _
  cases x <;> simp [Except.bind]

theorem except_bind_eq_error {x : Except ε α} {f : α → Except ε β} {e : ε} :
    (x >>= f) = .error e ↔ x = .error e ∨ ∃ a, x = .ok a ∧ f a = .error e := by
  change Except.bind x f = _ ↔ _
  cases x <;> simp [Except.bind]

theorem except_map_eq_ok {x : Except ε α} {f : α → β} {b : β} :
    x.map f = .ok b ↔ ∃ a, x = .ok a ∧ f a = b := by
  cases x <;> simp [Except.map]

theorem except_toOption_eq_some {x : Except ε α} {a : α} :
    x.toOption = some a ↔ x = .ok a := by
  cases x <;> simp [Except.toOption]

theorem except_mapError_eq_ok {ε' : Type} {x : Except ε α} {f : ε → ε'} {a : α} :
    x.mapError f = .ok a ↔ x = .ok a := by
  cases x with
  | ok b =>
      change (Except.ok b : Except ε' α) = _ ↔ _
      rw [Except.ok.injEq, Except.ok.injEq]
  | error e =>
      change (Except.error (f e) : Except ε' α) = _ ↔ _
      exact iff_of_false (by simp) (by simp)

end Exceptional

end Forwarding
