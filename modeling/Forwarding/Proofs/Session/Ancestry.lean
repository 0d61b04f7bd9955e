import Forwarding.Proofs.Registry.ClassBytes
import Forwarding.Proofs.Session.Lookup

/-!
# Ancestors are older

A definition finds its ancestor before it is made, so the ancestor of a registered
type is always an older type, also when it has the same name.  Going up therefore
comes to an end, and a climb that may visit as many types as were ever made is never
cut short.
-/

namespace Forwarding

namespace Registry

variable {r : Registry} {t p : TypeId}

theorem Coherent.older_of_ancestor? (hcoherent : r.Coherent) (hp : r.ancestor? t = some p) :
    p.index < t.index := by
  obtain ⟨d, hd, hancestor⟩ := ancestor?_eq_some_iff.mp hp
  exact hcoherent.ancestor_lt hd hancestor

theorem Coherent.index_le_of_descends (hcoherent : r.Coherent) (hdescends : r.Descends t p) :
    p.index ≤ t.index := by
  induction hdescends with
  | refl => exact Nat.le_refl _
  | up hparent _ ih => exact Nat.le_trans ih (Nat.le_of_lt (hcoherent.older_of_ancestor? hparent))

theorem Coherent.wellFounded_ancestor? (hcoherent : r.Coherent) :
    WellFounded fun p t => r.ancestor? t = some p :=
  Subrelation.wf (fun hp => hcoherent.older_of_ancestor? hp)
    (InvImage.wf TypeId.index Nat.lt_wfRel.wf)

/-- A class that extends the current type of its own name. -/
def heir (name : String) : ClassSpec :=
  ⟨name, false, some name, [], [], none⟩

theorem define_heir {name : String} (hsound : r.Sound) (hname : definable name = true)
    (hp : r.get? name = some p) :
    ∃ t r', define (heir name) r = .ok t r' ∧ r'.ancestor? t = some p ∧ r'.nameOf t = name ∧
      r'.nameOf p = name := by
  have hparent : parentId (heir name).parent r = .ok p r := load_of_get? hp
  have ht : (r.insert (classDefinition (heir name) p [] r.nextId)).definition? r.nextId =
      some (classDefinition (heir name) p [] r.nextId) := by
    rw [definition?_insert, if_pos rfl]
  obtain ⟨d, hd, hdname⟩ := hsound.current hp
  refine ⟨_, _, ?_, ancestor?_eq_some_iff.mpr ⟨_, ht, rfl⟩, nameOf_eq ht,
    (nameOf_eq (definition?_insert_of_some hd)).trans hdname⟩
  unfold define
  rw [if_neg (by simp [heir, hname]), bind_of_ok hparent]
  rfl

end Registry

namespace World

variable {w : World} {t : TypeRef} {limit : Nat}

/-- How many types had been made before a registered type. -/
def age : TypeRef → Nat
  | .registered id => id.index
  | .hosted _ => 0

theorem age_lt_of_ancestor? {u p : TypeRef} (hsound : w.registry.Sound) (hu : w.Holds u)
    (hp : w.ancestor? u = some p) : age p < age u := by
  obtain ⟨id, rfl, -⟩ := hu
  obtain ⟨parent, hparent, rfl⟩ := Option.map_eq_some_iff.mp hp
  exact hsound.older_of_ancestor? hparent

theorem visited_whole (hsound : w.registry.Sound) (ht : w.Holds t)
    (hlimit : w.registry.definitions.size ≤ limit) : (w.view.visited limit t).2 = false := by
  have hclosed (u p : TypeRef) (hu : w.Holds u) (hp : w.view.ancestor? u = some p) :
      w.Holds p := hu.ancestor hsound hp
  have hrank (u p : TypeRef) (hu : w.Holds u) (hp : w.view.ancestor? u = some p) :
      age p < age u := age_lt_of_ancestor? hsound hu hp
  refine TypeView.visited_of_rank hclosed hrank ht ?_
  obtain ⟨id, rfl, hknown⟩ := ht
  exact Nat.lt_of_lt_of_le hknown hlimit

/-- The ancestor of a registered type is older than the type.  So no chain of ancestors
goes on for ever or comes back to a type, and no climb from a registered type is cut
short if it may visit as many types as were ever made. -/
theorem ancestors_end (hreachable : w.registry.Reachable) :
    (∀ t p, w.registry.ancestor? t = some p → w.registry.Knows p ∧ p.index < t.index) ∧
      (WellFounded fun p t => w.registry.ancestor? t = some p) ∧
      (∀ t p, w.registry.ancestor? t = some p → ¬w.registry.Descends p t) ∧
      ∀ t limit, w.registry.Knows t → w.registry.definitions.size ≤ limit →
        (∃ types, w.view.walk limit (.registered t) = (types, none)) ∧
        (∀ shape, ∃ found, w.view.findMethod limit (.registered t) shape = .ok found) ∧
        (∀ kind, ∃ found, w.view.findAnnotated limit (.registered t) kind = .ok found) ∧
        ∃ above, w.view.ancestors limit (.registered t) = .ok above := by
  have hsound := hreachable.sound
  refine ⟨?_, hsound.wellFounded_ancestor?, ?_, ?_⟩
  · intro t p hp
    exact ⟨hsound.knows_of_ancestor? hp, hsound.older_of_ancestor? hp⟩
  · intro t p hp hdescends
    have holder := hsound.older_of_ancestor? hp
    have hle := hsound.index_le_of_descends hdescends
    omega
  · intro t limit hknown hlimit
    have hwhole := visited_whole hsound ⟨t, rfl, hknown⟩ hlimit
    exact ⟨⟨_, TypeView.walk_of_visited hwhole⟩, fun _ => TypeView.exists_firstUp_eq_ok hwhole,
      fun _ => TypeView.exists_firstUp_eq_ok hwhole, TypeView.exists_ancestors_eq_ok hwhole⟩

/-- A class that extends an older class of its own name. -/
theorem ancestors_end_of_heir :
    ∃ (w : World) (t p : TypeId), w.registry.Reachable ∧ w.registry.nameOf t = "a.B" ∧
      w.registry.nameOf p = "a.B" ∧ w.registry.ancestor? t = some p ∧ p.index < t.index ∧
      ∃ types, w.view.walk w.registry.definitions.size (.registered t) = (types, none) := by
  have hname : Registry.definable "a.B" = true := by decide +kernel
  have hfirst := Registry.Ledger.define_plainClass .initial hname none
  have hreachable₁ := Registry.Reachable.define .refl hfirst
  have hp := Registry.get?_of_define Registry.sound_initial hfirst
  obtain ⟨t, r, hsecond, hancestor, ht, hpname⟩ :=
    Registry.define_heir hreachable₁.sound hname hp
  have hreachable := hreachable₁.define hsecond
  obtain ⟨holder, -, -, hend⟩ := ancestors_end (w := ⟨r, #[], []⟩) hreachable
  obtain ⟨d, hd, -⟩ := Registry.ancestor?_eq_some_iff.mp hancestor
  have hwalk := (hend t _ (Registry.knows_iff.mpr ⟨d, hd⟩) (Nat.le_refl _)).1
  exact ⟨⟨r, #[], []⟩, t, _, hreachable, ht, hpname, hancestor, (holder t _ hancestor).2, hwalk⟩

end World

end Forwarding
