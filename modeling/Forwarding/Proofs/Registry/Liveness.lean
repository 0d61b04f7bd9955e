import Forwarding.Proofs.Registry.Loading
import Forwarding.Registry.Liveness

/-!
# What keeps a type alive

A type is alive when some type that descends from it is pinned.  Array types
descend from the root, which is pinned anyway, so making them changes nothing
about the types that were there before.
-/

namespace Forwarding.Registry

variable {r r' : Registry} {held held' : List TypeId} {t u p : TypeId}

/-! ## Descent -/

/-- Whether the second type is reached from the first by going up. -/
inductive Descends (r : Registry) : TypeId → TypeId → Prop
  | refl (t : TypeId) : Descends r t t
  | up {u p t : TypeId} : r.ancestor? u = some p → Descends r p t → Descends r u t

theorem Descends.trans (hfirst : r.Descends u p) (hsecond : r.Descends p t) :
    r.Descends u t := by
  induction hfirst with
  | refl => exact hsecond
  | up hp _ ih => exact .up hp (ih hsecond)

theorem descends_iff :
    r.Descends u t ↔ u = t ∨ ∃ p, r.ancestor? u = some p ∧ r.Descends p t := by
  constructor
  · intro hdescends
    cases hdescends with
    | refl => exact Or.inl rfl
    | up hp hup => exact Or.inr ⟨_, hp, hup⟩
  · rintro (rfl | ⟨p, hp, hup⟩)
    · exact .refl u
    · exact .up hp hup

theorem eq_of_descends (hunknown : ¬r.Knows u) (hdescends : r.Descends u t) : t = u := by
  rcases descends_iff.mp hdescends with rfl | ⟨p, hp, -⟩
  · rfl
  · obtain ⟨d, hd, -⟩ := ancestor?_eq_some_iff.mp hp
    exact absurd (knows_iff.mpr ⟨d, hd⟩) hunknown

theorem Sound.eq_root_of_descends (hsound : r.Sound) (hdescends : r.Descends r.root t) :
    t = r.root := by
  rcases descends_iff.mp hdescends with rfl | ⟨p, hp, -⟩
  · rfl
  · rw [hsound.ancestor?_root] at hp
    cases hp

theorem descent_spec (hcoherent : r.Coherent) (t : TypeId) :
    (r.descent t).size = r.definitions.size ∧
      ∀ i, i < r.definitions.size →
        ((r.descent t)[i]?.getD false = true ↔ r.Descends ⟨i⟩ t) := by
  refine Array.foldl_induction
    (motive := fun n (marks : Array Bool) => marks.size = n ∧
      ∀ i, i < n → (marks[i]?.getD false = true ↔ r.Descends ⟨i⟩ t))
    ⟨rfl, fun i hi => absurd hi (Nat.not_lt_zero i)⟩ ?_
  rintro n marks ⟨hsize, hmarks⟩
  refine ⟨by rw [Array.size_push, hsize], fun i hi => ?_⟩
  rw [Array.getElem?_push]
  split
  next heq =>
    obtain rfl : i = n := heq.trans hsize
    have hd : r.definition? ⟨n⟩ = some r.definitions[n] :=
      Array.getElem?_eq_getElem n.isLt
    have hancestor : r.ancestor? ⟨n⟩ = (r.definitions[n]).ancestor? := by
      simp [ancestor?, hd]
    rw [descends_iff, hancestor]
    have hself : (⟨n⟩ : TypeId) = t ↔ marks.size = t.index := by
      obtain ⟨index⟩ := t
      simp [heq]
    rw [hself]
    simp only [Option.getD_some, Bool.or_eq_true, decide_eq_true_eq, Option.any_eq_true]
    refine or_congr_right (exists_congr fun p => and_congr_right fun hp => ?_)
    have hlt := hcoherent.ancestor_lt hd hp
    exact hmarks p.index (by simp only at hlt; omega)
  next hne => exact hmarks i (by omega)

/-! ## Alive -/

theorem isPinned_iff :
    r.isPinned held t = true ↔ r.get? (r.nameOf t) = some t ∨ t = r.root ∨ t ∈ held := by
  simp [isPinned, or_assoc]

theorem isAlive_iff (hcoherent : r.Coherent) :
    r.isAlive held t = true ↔ ∃ u, r.Descends u t ∧ r.isPinned held u = true := by
  obtain ⟨hsize, hmarks⟩ := descent_spec hcoherent t
  unfold isAlive
  rw [Bool.or_eq_true, List.any_eq_true]
  constructor
  · rintro (hpinned | ⟨⟨descends, index⟩, hmem, hboth⟩)
    · exact ⟨t, .refl t, hpinned⟩
    · rw [List.mem_zipIdx_iff_getElem?, Array.getElem?_toList] at hmem
      rw [Bool.and_eq_true] at hboth
      have hlt : index < r.definitions.size := by
        rw [← hsize]
        exact (Array.getElem?_eq_some_iff.mp hmem).1
      refine ⟨⟨index⟩, (hmarks index hlt).mp ?_, hboth.2⟩
      rw [hmem]
      exact hboth.1
  · rintro ⟨u, hdescends, hpinned⟩
    rcases descends_iff.mp hdescends with rfl | ⟨p, hp, -⟩
    · exact Or.inl hpinned
    · obtain ⟨d, hd, -⟩ := ancestor?_eq_some_iff.mp hp
      have hlt : u.index < r.definitions.size := knows_iff.mpr ⟨d, hd⟩
      have hmark := (hmarks u.index hlt).mpr hdescends
      refine Or.inr ⟨(true, u.index), ?_, by simpa using hpinned⟩
      rw [List.mem_zipIdx_iff_getElem?, Array.getElem?_toList]
      cases hget : (r.descent t)[u.index]? with
      | none => rw [hget] at hmark; cases hmark
      | some mark => rw [hget] at hmark; exact congrArg some hmark

theorem isAlive_of_isPinned (hcoherent : r.Coherent) (hpinned : r.isPinned held t = true) :
    r.isAlive held t = true :=
  (isAlive_iff hcoherent).mpr ⟨t, .refl t, hpinned⟩

/-- Holding only what is alive makes nothing else alive. -/
theorem isAlive_of_held (hcoherent : r.Coherent)
    (hheld : ∀ u ∈ held', r.isAlive held u = true)
    (halive : r.isAlive held' t = true) : r.isAlive held t = true := by
  obtain ⟨u, hdescends, hpinned⟩ := (isAlive_iff hcoherent).mp halive
  have hu : r.isAlive held u = true := by
    rcases isPinned_iff.mp hpinned with hcurrent | hroot | hmem
    · exact isAlive_of_isPinned hcoherent (isPinned_iff.mpr (Or.inl hcurrent))
    · exact isAlive_of_isPinned hcoherent (isPinned_iff.mpr (Or.inr (Or.inl hroot)))
    · exact hheld u hmem
  obtain ⟨v, hv, hpinned'⟩ := (isAlive_iff hcoherent).mp hu
  exact (isAlive_iff hcoherent).mpr ⟨v, hv.trans hdescends, hpinned'⟩

theorem isAlive_mono (hcoherent : r.Coherent) (hheld : ∀ u ∈ held, u ∈ held')
    (halive : r.isAlive held t = true) : r.isAlive held' t = true := by
  obtain ⟨u, hdescends, hpinned⟩ := (isAlive_iff hcoherent).mp halive
  refine (isAlive_iff hcoherent).mpr ⟨u, hdescends, isPinned_iff.mpr ?_⟩
  exact (isPinned_iff.mp hpinned).imp_right (Or.imp_right (hheld u))

theorem isPinned_of_not_knows (hsound : r.Sound) (hunknown : ¬r.Knows t) :
    r.isPinned held t = true ↔ t ∈ held := by
  have hname : r.get? (r.nameOf t) ≠ some t :=
    fun hcurrent => hunknown (hsound.knows_of_get? hcurrent)
  have hroot : t ≠ r.root := by
    rintro rfl
    exact hunknown hsound.knows_root
  rw [isPinned_iff]
  simp [hname, hroot]

/-! ## Alive in a larger registry -/

theorem Extends.isPinned_eq (hext : r.Extends r') (hsound : r.Sound) (hknown : r.Knows t) :
    r'.isPinned held t = r.isPinned held t := by
  rw [isPinned, isPinned, hext.get?_nameOf hsound hknown, hext.root]

theorem Extends.isPinned_of_new (hext : r.Extends r') (hunknown : ¬r.Knows t)
    (hknown : r'.Knows t) : r'.isPinned held t = true := by
  obtain ⟨d, hd⟩ := knows_iff.mp hknown
  rw [isPinned_iff, Registry.nameOf_eq hd]
  exact Or.inl (hext.array hunknown hd).1

theorem Extends.descends_iff (hext : r.Extends r') (hsound : r.Sound) (hknown : r.Knows u) :
    r'.Descends u t ↔ r.Descends u t := by
  constructor
  · intro hdescends
    induction hdescends with
    | refl => exact .refl _
    | up hp _ ih =>
        rw [hext.ancestor?_eq hknown] at hp
        exact .up hp (ih (hsound.knows_of_ancestor? hp))
  · intro hdescends
    induction hdescends with
    | refl => exact .refl _
    | up hp _ ih =>
        have hp' := (hext.ancestor?_eq hknown).trans hp
        exact .up hp' (ih (hsound.knows_of_ancestor? hp))

/-- Array types that have been made since change nothing about whether an
older type is alive. -/
theorem Extends.isAlive_iff (hext : r.Extends r') (hsound : r.Sound) (hsound' : r'.Sound) :
    r'.isAlive held t = true ↔
      r.isAlive held t = true ∨ (¬r.Knows t ∧ r'.Knows t) := by
  rw [Registry.isAlive_iff hsound.toCoherent, Registry.isAlive_iff hsound'.toCoherent]
  constructor
  · rintro ⟨u, hdescends, hpinned⟩
    by_cases hu : r.Knows u
    · refine Or.inl ⟨u, (hext.descends_iff hsound hu).mp hdescends, ?_⟩
      rwa [hext.isPinned_eq hsound hu] at hpinned
    · rcases Registry.descends_iff.mp hdescends with rfl | ⟨p, hp, hup⟩
      · by_cases hu' : r'.Knows u
        · exact Or.inr ⟨hu, hu'⟩
        · rw [isPinned_of_not_knows hsound' hu'] at hpinned
          exact Or.inl ⟨u, .refl u, (isPinned_of_not_knows hsound hu).mpr hpinned⟩
      · obtain ⟨d, hd, hancestor⟩ := ancestor?_eq_some_iff.mp hp
        obtain ⟨-, component, harray⟩ := hext.array hu hd
        rw [harray] at hancestor
        cases hancestor
        rw [← hext.root] at hup
        obtain rfl := hsound'.eq_root_of_descends hup
        rw [hext.root]
        exact Or.inl ⟨r.root, .refl _, isPinned_iff.mpr (Or.inr (Or.inl rfl))⟩
  · rintro (⟨u, hdescends, hpinned⟩ | ⟨hunknown, hknown⟩)
    · by_cases hu : r.Knows u
      · refine ⟨u, (hext.descends_iff hsound hu).mpr hdescends, ?_⟩
        rwa [hext.isPinned_eq hsound hu]
      · rw [isPinned_of_not_knows hsound hu] at hpinned
        obtain rfl := eq_of_descends hu hdescends
        exact ⟨t, .refl t, isPinned_iff.mpr (Or.inr (Or.inr hpinned))⟩
    · exact ⟨t, .refl t, hext.isPinned_of_new hunknown hknown⟩

/-! ## Listed methods -/

theorem mem_declaredMethods_iff {d : Definition} {handle : Method TypeId}
    (hd : r.definition? t = some d) :
    handle ∈ r.declaredMethods held t ↔ ∃ declaration ∈ d.methods,
      r.isListed held declaration = true ∧ handle = { declaration with owner := t } := by
  unfold declaredMethods
  rw [hd]
  simp only [List.mem_map, List.mem_filter]
  constructor
  · intro hhandle
    obtain ⟨declaration, hlisted, heq⟩ := hhandle
    exact ⟨declaration, hlisted.1, hlisted.2, heq.symm⟩
  · intro hhandle
    obtain ⟨declaration, hmem, hlisted, heq⟩ := hhandle
    exact ⟨declaration, ⟨hmem, hlisted⟩, heq.symm⟩

theorem isListed_of_held (hcoherent : r.Coherent) (declaration : Declaration TypeId) :
    r.isListed (declaration.result :: declaration.shape.parameters) declaration = true := by
  have halive (u : TypeId) (hu : u ∈ declaration.result :: declaration.shape.parameters) :
      r.isAlive (declaration.result :: declaration.shape.parameters) u = true :=
    isAlive_of_isPinned hcoherent (isPinned_iff.mpr (Or.inr (Or.inr hu)))
  rw [List.forall_mem_cons] at halive
  rw [isListed, Bool.and_eq_true, List.all_eq_true]
  exact ⟨halive.2, halive.1⟩

end Forwarding.Registry
