import Forwarding.Types.Hierarchy

/-!
# Climbs through equal parts

What a climb gives depends only on the types that it can come to.  So it gives
the same in two views that agree on a part from which no ancestor leads out, and
it comes to its end where a rank below its limit goes down with every ancestor.
-/

namespace Forwarding

theorem Method.mem_of_preferred? {τ : Type} {methods : List (Method τ)} {m : Method τ}
    (hm : preferred? methods = some m) : m ∈ methods := by
  unfold preferred? at hm
  cases hfind : methods.find? (!·.isStub) with
  | some found =>
      rw [hfind] at hm
      cases hm
      exact List.mem_of_find?_eq_some hfind
  | none =>
      rw [hfind] at hm
      exact List.mem_of_head? hm

theorem Method.exists_preferred? {τ : Type} {methods : List (Method τ)} {m : Method τ}
    (hm : m ∈ methods) : ∃ found, preferred? methods = some found := by
  unfold preferred?
  cases methods.find? (!·.isStub) with
  | some found => exact ⟨found, rfl⟩
  | none =>
      cases methods with
      | nil => cases hm
      | cons first rest => exact ⟨first, rfl⟩

namespace TypeView

variable {τ β : Type} {v v' : TypeView τ} {P : τ → Prop} {ask ask' : τ → Option β}
  {failure : Error} {limit : Nat} {t : τ}

theorem firstUp_of_isRoot (hroot : v.isRoot t = true) :
    v.firstUp ask failure limit t = .ok none := by
  unfold firstUp
  rw [if_pos hroot]

theorem firstUp_congr (hname : ∀ u, P u → v'.name u = v.name u)
    (hancestor : ∀ u, P u → v'.ancestor? u = v.ancestor? u)
    (hclosed : ∀ u p, P u → v.ancestor? u = some p → P p)
    (hask : ∀ u, P u → ask' u = ask u) (ht : P t) :
    v'.firstUp ask' failure limit t = v.firstUp ask failure limit t := by
  have hroot {u : τ} (hu : P u) : v'.isRoot u = v.isRoot u := by
    rw [isRoot, isRoot, hname u hu]
  induction limit generalizing t with
  | zero =>
      unfold firstUp
      rw [hroot ht]
  | succ limit ih =>
      unfold firstUp
      rw [hroot ht, hask t ht, hancestor t ht]
      cases hparent : v.ancestor? t with
      | none => rfl
      | some parent =>
          dsimp only
          rw [ih (hclosed t parent ht hparent)]

theorem exists_of_firstUp_eq_some {answer : β}
    (hclosed : ∀ u p, P u → v.ancestor? u = some p → P p) (ht : P t)
    (hfirst : v.firstUp ask failure limit t = .ok (some answer)) :
    ∃ u, P u ∧ ask u = some answer := by
  induction limit generalizing t with
  | zero =>
      unfold firstUp at hfirst
      split at hfirst <;> cases hfirst
  | succ limit ih =>
      unfold firstUp at hfirst
      split at hfirst
      next => cases hfirst
      next =>
        dsimp only at hfirst
        split at hfirst
        next found hfound =>
          cases hfirst
          exact ⟨t, ht, hfound⟩
        next =>
          split at hfirst
          next parent hparent => exact ih (hclosed t parent ht hparent) hfirst
          next => cases hfirst

theorem eq_failure_of_firstUp {error : Error}
    (hfirst : v.firstUp ask failure limit t = .error error) : error = failure := by
  induction limit generalizing t with
  | zero =>
      unfold firstUp at hfirst
      split at hfirst <;> cases hfirst
      rfl
  | succ limit ih =>
      unfold firstUp at hfirst
      split at hfirst
      next => cases hfirst
      next =>
        dsimp only at hfirst
        split at hfirst
        next => cases hfirst
        next =>
          split at hfirst
          next => exact ih hfirst
          next => cases hfirst

/-! ## Climbs and the types that they visit -/

/-- A climb asks the types that a walk visits, and fails where the walk is cut short
before one of them has answered. -/
theorem firstUp_eq_of_visited (v : TypeView τ) (ask : τ → Option β) (failure : Error)
    (limit : Nat) (t : τ) :
    v.firstUp ask failure limit t =
      match (v.visited limit t).1.findSome? ask with
      | some answer => .ok (some answer)
      | none => if (v.visited limit t).2 then .error failure else .ok none := by
  induction limit generalizing t with
  | zero =>
      unfold firstUp visited
      by_cases hroot : v.isRoot t = true <;> simp [hroot]
  | succ limit ih =>
      unfold firstUp visited
      by_cases hroot : v.isRoot t = true
      · simp [hroot]
      · rw [if_neg hroot, if_neg hroot]
        cases hparent : v.ancestor? t with
        | none => cases hask : ask t <;> simp [hask]
        | some parent => cases hask : ask t <;> simp [hask, ih]

/-- A walk reaches the end of a chain on which a rank below the limit goes down. -/
theorem visited_of_rank {rank : τ → Nat}
    (hclosed : ∀ u p, P u → v.ancestor? u = some p → P p)
    (hrank : ∀ u p, P u → v.ancestor? u = some p → rank p < rank u)
    (ht : P t) (hlimit : rank t < limit) : (v.visited limit t).2 = false := by
  induction limit generalizing t with
  | zero => exact absurd hlimit (Nat.not_lt_zero _)
  | succ limit ih =>
      unfold visited
      by_cases hroot : v.isRoot t = true
      · rw [if_pos hroot]
      · rw [if_neg hroot]
        cases hparent : v.ancestor? t with
        | none => rfl
        | some parent =>
            have hlt := hrank t parent ht hparent
            exact ih (hclosed t parent ht hparent) (by omega)

theorem exists_firstUp_eq_ok (hwhole : (v.visited limit t).2 = false) :
    ∃ found, v.firstUp ask failure limit t = .ok found := by
  rw [firstUp_eq_of_visited, hwhole]
  cases (v.visited limit t).1.findSome? ask with
  | none => exact ⟨none, rfl⟩
  | some answer => exact ⟨some answer, rfl⟩

theorem walk_of_visited (hwhole : (v.visited limit t).2 = false) :
    v.walk limit t = ((v.visited limit t).1, none) := by
  unfold walk
  simp [hwhole]

theorem exists_ancestors_eq_ok (hwhole : (v.visited limit t).2 = false) :
    ∃ above, v.ancestors limit t = .ok above := by
  unfold ancestors
  rw [walk_of_visited hwhole]
  cases (v.visited limit t).1 with
  | nil => exact ⟨[], rfl⟩
  | cons first above => exact ⟨above, rfl⟩

/-! ## Lookups -/

variable [DecidableEq τ] {shape shape' : Shape τ}

theorem mem_of_declared? {m : Method τ} (hm : v.declared? shape t = some m) :
    m ∈ v.methods t ∧ m.shape = shape := by
  have hmem := Method.mem_of_preferred? hm
  simpa using List.mem_filter.mp hmem

/-- A method that a type other than the root lists is found by its shape, or
another one of that shape is. -/
theorem findMethod_of_mem {m : Method τ} (hroot : v.isRoot t = false) (hm : m ∈ v.methods t) :
    ∃ found ∈ v.methods t, found.shape = m.shape ∧
      v.findMethod (limit + 1) t m.shape = .ok (some found) := by
  have hfits : m ∈ (v.methods t).filter (·.shape = m.shape) :=
    List.mem_filter.mpr ⟨hm, by simp⟩
  obtain ⟨found, hfound⟩ := Method.exists_preferred? hfits
  have hdeclared : v.declared? m.shape t = some found := hfound
  obtain ⟨hmem, hshape⟩ := mem_of_declared? hdeclared
  refine ⟨found, hmem, hshape, ?_⟩
  unfold findMethod firstUp
  simp [hroot, hdeclared]

/-- Two lookups give the same where the views agree and the shapes fit the same
methods. -/
theorem findMethod_congr (hname : ∀ u, P u → v'.name u = v.name u)
    (hancestor : ∀ u, P u → v'.ancestor? u = v.ancestor? u)
    (hclosed : ∀ u p, P u → v.ancestor? u = some p → P p)
    (hmethods : ∀ u, P u → v'.methods u = v.methods u)
    (hshape : ∀ u, P u → ∀ m ∈ v.methods u, m.shape = shape' ↔ m.shape = shape)
    (ht : P t) : v'.findMethod limit t shape' = v.findMethod limit t shape := by
  have hdeclared (u : τ) (hu : P u) : v'.declared? shape' u = v.declared? shape u := by
    unfold declared?
    rw [hmethods u hu]
    congr 1
    exact List.filter_congr fun m hm => decide_eq_decide.mpr (hshape u hu m hm)
  unfold findMethod tooDeep
  rw [hname t ht]
  exact firstUp_congr hname hancestor hclosed hdeclared ht

end TypeView

end Forwarding
