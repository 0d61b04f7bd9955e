import Forwarding.Proofs.Session.Growth
import Forwarding.Proofs.Types.Hierarchy

/-!
# Lookups in worlds that grow

Two worlds that have grown from a common one may have made the same array
types in different orders.  A lookup still gives the same in both, because no
method mentions an array type that is newer than its owner.
-/

namespace Forwarding.World

variable {w w' base a b : World} {name : String} {t u : TypeRef}

/-! ## Types that stand for each other -/

/-- Two types that a world takes for one: it knows both as the same or knows
neither. -/
def Twins (w : World) (t u : TypeRef) : Prop :=
  w.Holds t ∧ t = u ∨ ¬w.Holds t ∧ ¬w.Holds u

theorem Current.of_holds (hsound : base.registry.Sound) (ha : base.Grows a)
    (ht : a.Current name t) (hholds : base.Holds t) : base.Current name t := by
  obtain ⟨id, rfl, hid⟩ := ht
  obtain ⟨id', heq, hknown⟩ := hholds
  cases heq
  obtain ⟨d, hd⟩ := Registry.knows_iff.mp hknown
  obtain ⟨v, hv⟩ := hsound.named hd
  have hname : d.name = name := by
    rw [← Registry.nameOf_eq hd, ← ha.registry.nameOf_eq hknown,
      ha.sound.nameOf_of_get? hid]
  rw [hname] at hv
  cases (ha.registry.get? hv).symm.trans hid
  exact ⟨id, rfl, hv⟩

theorem twins_of_current (hsound : base.registry.Sound) (ha : base.Grows a)
    (hb : base.Grows b) (ht : a.Current name t) (hu : b.Current name u) :
    base.Twins t u := by
  have hsame {v v' : TypeRef} {c c' : World} (hc : base.Grows c) (hc' : base.Grows c')
      (hv : c.Current name v) (hv' : c'.Current name v') (hholds : base.Holds v) :
      v = v' := by
    obtain ⟨id, rfl, hid⟩ := hv.of_holds hsound hc hholds
    obtain ⟨id', rfl, hid'⟩ := hv'
    rw [hc'.registry.get? hid] at hid'
    cases hid'
    rfl
  by_cases hholds : base.Holds t
  · exact Or.inl ⟨hholds, hsame ha hb ht hu hholds⟩
  · refine Or.inr ⟨hholds, fun hholds' => hholds ?_⟩
    rw [← hsame hb ha hu ht hholds']
    exact hholds'

theorem eq_iff_of_twins {ts us known : List TypeRef}
    (htwins : List.Forall₂ base.Twins ts us) (hknown : ∀ v ∈ known, base.Holds v) :
    known = ts ↔ known = us := by
  induction htwins generalizing known with
  | nil => exact Iff.rfl
  | @cons t u _ _ hhead _ ih =>
      cases known with
      | nil => simp
      | cons v rest =>
          rw [List.forall_mem_cons] at hknown
          have hv : v = t ↔ v = u := by
            rcases hhead with ⟨-, rfl⟩ | ⟨ht, hu⟩
            · exact Iff.rfl
            · exact iff_of_false (fun h => ht (h ▸ hknown.1)) (fun h => hu (h ▸ hknown.1))
          simp only [List.cons.injEq, hv, ih hknown.2]

theorem forall₂_twins {names : List String} {ts us : List TypeRef}
    (hsound : base.registry.Sound) (ha : base.Grows a) (hb : base.Grows b)
    (hts : List.Forall₂ a.Current names ts) (hus : List.Forall₂ b.Current names us) :
    List.Forall₂ base.Twins ts us := by
  induction hts generalizing us with
  | nil =>
      cases hus
      exact .nil
  | cons hhead _ ih =>
      cases hus with
      | cons hhead' hrest =>
          exact .cons (twins_of_current hsound ha hb hhead hhead') (ih hrest)

theorem findMethod_registered {limit : Nat} {shape : Shape TypeRef}
    (hsound : base.registry.Sound) (ha : base.Grows a) (ht : base.Holds t) :
    a.view.findMethod limit t shape = base.view.findMethod limit t shape :=
  TypeView.findMethod_congr (fun _ hu => ha.nameOf_eq hu.knows)
    (fun _ hu => ha.ancestor?_eq hu.knows) (fun _ _ hu hp => hu.ancestor hsound hp)
    (fun _ hu => ha.methods_eq hsound hu.knows) (fun _ _ _ _ => Iff.rfl) ht

theorem findMethod_twins {limit : Nat} {method : String} {ts us : List TypeRef}
    (hsound : base.registry.Sound) (ht : base.Holds t)
    (htwins : List.Forall₂ base.Twins ts us) :
    base.view.findMethod limit t ⟨method, ts⟩ =
      base.view.findMethod limit t ⟨method, us⟩ := by
  refine TypeView.findMethod_congr (fun _ _ => rfl) (fun _ _ => rfl)
    (fun _ _ hu hp => hu.ancestor hsound hp) (fun _ _ => rfl) (fun u hu m hm => ?_) ht
  have hparameters := eq_iff_of_twins htwins (holds_of_mem_methods hsound hu hm).2
  rcases hshape : m.shape with ⟨name, parameters⟩
  rw [hshape] at hparameters
  simp only [Shape.mk.injEq, hparameters]

theorem isRoot_root (hsound : w.registry.Sound) :
    w.view.isRoot (.registered w.registry.root) = true := by
  unfold TypeView.isRoot
  exact beq_iff_eq.mpr hsound.nameOf_root

/-- An array type offers nothing, and above it there is only the root. -/
theorem findMethod_of_new {limit : Nat} {shape : Shape TypeRef}
    (ha : base.Grows a) (ht : a.Current name t) (hnew : ¬base.Holds t) :
    a.view.findMethod limit t shape =
      if name = rootTypeName ∨ limit ≠ 0 then .ok none
      else .error (.hierarchyCycle name limit) := by
  obtain ⟨id, rfl, hid⟩ := ht
  obtain ⟨d, hd, -⟩ := ha.sound.current hid
  have hunknown : ¬base.registry.Knows id := fun hknown => hnew ⟨id, rfl, hknown⟩
  obtain ⟨-, component, harray⟩ := ha.registry.array hunknown hd
  have hview : a.view.name (.registered id) = name :=
    ha.sound.nameOf_of_get? hid
  have hancestor : a.view.ancestor? (.registered id) = some (.registered a.registry.root) := by
    change Option.map _ (a.registry.ancestor? id) = _
    rw [Registry.ancestor?, hd, harray, ha.registry.root]
    rfl
  have hmethods : a.view.methods (.registered id) = [] := by
    change List.map _ (a.registry.declaredMethods a.held id) = _
    rw [Registry.declaredMethods, hd, harray]
    rfl
  have hdeclared : a.view.declared? shape (.registered id) = none := by
    rw [TypeView.declared?, hmethods]
    rfl
  have hroot : a.view.isRoot (.registered id) = true ↔ name = rootTypeName := by
    rw [TypeView.isRoot, hview, beq_iff_eq]
  unfold TypeView.findMethod TypeView.firstUp
  -- A lookup stops at any type with the name of the root, so the name matters.
  by_cases hnamed : name = rootTypeName
  · rw [if_pos (hroot.mpr hnamed), if_pos (Or.inl hnamed)]
  · rw [if_neg (hroot.not.mpr hnamed)]
    cases limit with
    | zero =>
        rw [if_neg (by simp [hnamed]), TypeView.tooDeep, hview]
    | succ limit =>
        rw [if_pos (Or.inr (Nat.succ_ne_zero limit))]
        simp only [hdeclared, hancestor]
        exact TypeView.firstUp_of_isRoot (isRoot_root ha.sound)

/-- The lookup of a callee gives the same in two worlds that have grown from a
common one. -/
theorem findMethod_alike {limit : Nat} {owner method : String} {names : List String}
    {ts us : List TypeRef} (hsound : base.registry.Sound) (ha : base.Grows a)
    (hb : base.Grows b) (ht : a.Current owner t) (hu : b.Current owner u)
    (hts : List.Forall₂ a.Current names ts) (hus : List.Forall₂ b.Current names us) :
    a.view.findMethod limit t ⟨method, ts⟩ = b.view.findMethod limit u ⟨method, us⟩ := by
  rcases twins_of_current hsound ha hb ht hu with ⟨hholds, rfl⟩ | ⟨hnew, hnew'⟩
  · rw [findMethod_registered hsound ha hholds, findMethod_registered hsound hb hholds]
    exact findMethod_twins hsound hholds (forall₂_twins hsound ha hb hts hus)
  · rw [findMethod_of_new ha ht hnew, findMethod_of_new hb hu hnew']

/-- The owner of a method that a lookup finds is one of the types that it
visits. -/
theorem holds_owner_of_findMethod {limit : Nat} {shape : Shape TypeRef}
    {m : Method TypeRef} (hsound : base.registry.Sound) (ha : base.Grows a)
    (ht : a.Current name t) (hm : a.view.findMethod limit t shape = .ok (some m)) :
    base.Holds m.owner := by
  by_cases hholds : base.Holds t
  · rw [findMethod_registered hsound ha hholds] at hm
    obtain ⟨u, hu, hask⟩ := TypeView.exists_of_firstUp_eq_some
      (fun v p (hv : base.Holds v) hp => hv.ancestor hsound hp) hholds hm
    have howner := holds_of_mem_methods hsound hu (TypeView.mem_of_declared? hask).1
    rw [howner.1]
    exact hu
  · rw [findMethod_of_new ha ht hholds] at hm
    split at hm <;> cases hm

/-! ## Host types -/

/-- Whether the host types mention only types that are there. -/
def Closed (w : World) : Prop :=
  ∀ host ∈ w.hosts, ∀ t ∈ host.mentioned, w.Knows t

theorem Closed.ancestor (hclosed : w.Closed) (hsound : w.registry.Sound) (ht : w.Knows t)
    (hu : w.ancestor? t = some u) : w.Knows u := by
  cases t with
  | registered id => exact (Holds.ancestor hsound ⟨id, rfl, ht⟩ hu).knows
  | hosted index =>
      obtain ⟨host, hhost, hancestor⟩ := Option.bind_eq_some_iff.mp hu
      refine hclosed host (Array.mem_of_getElem? hhost) u (List.mem_append_left _ ?_)
      rw [hancestor]
      exact List.mem_singleton.mpr rfl

theorem Closed.owner (hclosed : w.Closed) (hsound : w.registry.Sound) (ht : w.Knows t)
    {m : Method TypeRef} (hm : m ∈ w.methods t) : w.Knows m.owner := by
  cases t with
  | registered id =>
      rw [(holds_of_mem_methods hsound ⟨id, rfl, ht⟩ hm).1]
      exact ht
  | hosted index =>
      simp only [methods] at hm
      cases hhost : w.hosts[index]? with
      | none => rw [hhost] at hm; cases hm
      | some host =>
          rw [hhost] at hm
          refine hclosed host (Array.mem_of_getElem? hhost) _ (List.mem_append_right _ ?_)
          exact List.mem_flatMap.mpr ⟨m, hm, List.mem_cons_self⟩

theorem findMethod_known {limit : Nat} {shape : Shape TypeRef} (hclosed : w.Closed)
    (hsound : w.registry.Sound) (hgrows : w.Grows w') (ht : w.Knows t) :
    w'.view.findMethod limit t shape = w.view.findMethod limit t shape :=
  TypeView.findMethod_congr (fun _ hu => hgrows.nameOf_eq hu)
    (fun _ hu => hgrows.ancestor?_eq hu) (fun _ _ hu hp => hclosed.ancestor hsound hu hp)
    (fun _ hu => hgrows.methods_eq hsound hu) (fun _ _ _ _ => Iff.rfl) ht

theorem owner_of_findMethod {limit : Nat} {shape : Shape TypeRef} {m : Method TypeRef}
    (hclosed : w.Closed) (hsound : w.registry.Sound) (ht : w.Knows t)
    (hm : w.view.findMethod limit t shape = .ok (some m)) :
    w.Knows m.owner ∧ m.shape = shape := by
  obtain ⟨u, hu, hask⟩ := TypeView.exists_of_firstUp_eq_some
    (fun v p (hv : w.Knows v) hp => hclosed.ancestor hsound hv hp) ht hm
  obtain ⟨hmem, hshape⟩ := TypeView.mem_of_declared? hask
  exact ⟨hclosed.owner hsound hu hmem, hshape⟩

end Forwarding.World
