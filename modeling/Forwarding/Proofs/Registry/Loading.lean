import Forwarding.Proofs.Descriptor.ArrayName
import Forwarding.Proofs.Outcome
import Forwarding.Proofs.Registry.Sound

/-!
# Loading adds array types only

Loading a name finds its current definition or makes the array types that are
missing.  A registry that has grown in this way agrees with the old one about
everything that the old one knows, about all class bytes and about which names
can be loaded.
-/

namespace Forwarding.Registry

open Forwarding.TypeName

variable {r r' r'' : Registry} {name element : String} {t c : TypeId} {n : Nat}

/-! ## Step by step -/

theorem loadArray_zero :
    loadArray element 0 r =
      match r.get? element with
      | some t => .ok t r
      | none => .error (.typeLoad (.unknown element)) r := by
  unfold loadArray
  rw [bind_of_ok (get_apply r)]
  cases r.get? element <;> rfl

theorem loadArray_succ :
    loadArray element (n + 1) r =
      match r.get? (element ++ arraySuffix (n + 1)) with
      | some t => .ok t r
      | none =>
          if n = 0 ∧ element = voidName then
            .error (.typeLoad (.unknown (element ++ arraySuffix (n + 1)))) r
          else
            match loadArray element n r with
            | .ok c r' =>
                .ok r'.nextId (r'.insert
                  (arrayDefinition (element ++ arraySuffix (n + 1)) c r'.root))
            | .error error r' => .error error r' := by
  rw [loadArray, bind_of_ok (get_apply r)]
  cases r.get? (element ++ arraySuffix (n + 1)) with
  | some t => rfl
  | none =>
      dsimp only
      split
      next => rfl
      next =>
        cases hcomponent : loadArray element n r with
        | ok c r' => exact bind_of_ok hcomponent
        | error error r' => exact bind_eq_error.mpr (Or.inl hcomponent)

theorem loadArray_of_get? (ht : r.get? (element ++ arraySuffix n) = some t) :
    loadArray element n r = .ok t r := by
  cases n with
  | zero =>
      rw [arraySuffix_zero, String.append_empty] at ht
      rw [loadArray_zero, ht]
  | succ n => rw [loadArray_succ, ht]

theorem load_eq_loadArray (hbare : IsBare element) :
    load (element ++ arraySuffix n) = loadArray element n := by
  unfold load
  rw [split_append hbare]

theorem exists_bare (name : String) :
    ∃ element n, IsBare element ∧ name = element ++ arraySuffix n := by
  obtain ⟨hname, hbare⟩ := append_of_split (rfl : split name = _)
  exact ⟨_, _, hbare, hname.symm⟩

theorem load_of_get? (ht : r.get? name = some t) : load name r = .ok t r := by
  obtain ⟨element, n, hbare, rfl⟩ := exists_bare name
  rw [load_eq_loadArray hbare, loadArray_of_get? ht]

/-! ## Which names can be loaded -/

def Loadable (r : Registry) (name : String) : Prop :=
  ∃ t r', load name r = .ok t r'

theorem loadable_zero (hbare : IsBare element) :
    r.Loadable element ↔ (r.get? element).isSome := by
  have hload := load_eq_loadArray (n := 0) hbare
  rw [arraySuffix_zero, String.append_empty] at hload
  unfold Loadable
  rw [hload, loadArray_zero]
  cases r.get? element <;> simp

theorem loadable_of_isSome (hname : (r.get? name).isSome) : r.Loadable name := by
  obtain ⟨t, ht⟩ := Option.isSome_iff_exists.mp hname
  exact ⟨t, r, load_of_get? ht⟩

theorem loadable_succ (hbare : IsBare element) :
    r.Loadable (element ++ arraySuffix (n + 1)) ↔
      (r.get? (element ++ arraySuffix (n + 1))).isSome ∨
        ¬(n = 0 ∧ element = voidName) ∧ r.Loadable (element ++ arraySuffix n) := by
  unfold Loadable
  rw [load_eq_loadArray hbare, load_eq_loadArray hbare, loadArray_succ]
  cases r.get? (element ++ arraySuffix (n + 1)) with
  | some t => simp
  | none =>
      by_cases hvoid : n = 0 ∧ element = voidName
      · simp [hvoid]
      · simp only [if_neg hvoid]
        cases loadArray element n r <;> simp [hvoid]

theorem loadable_of_element (hbare : IsBare element) (helement : (r.get? element).isSome)
    (hvoid : element ≠ voidName ∨ n = 0) : r.Loadable (element ++ arraySuffix n) := by
  induction n with
  | zero =>
      rw [arraySuffix_zero, String.append_empty, loadable_zero hbare]
      exact helement
  | succ n ih =>
      have hnever : element ≠ voidName := by simpa using hvoid
      exact (loadable_succ hbare).mpr
        (Or.inr ⟨fun hboth => hnever hboth.2, ih (Or.inl hnever)⟩)

theorem loadable_initial (hbare : IsBare name) :
    initial.Loadable name ↔ ∃ d ∈ builtin, d.name = name := by
  rw [loadable_zero hbare, isSome_get?_initial]

def missing (element : String) : Nat → Error
  | 0 => .typeLoad (.unknown element)
  | _ + 1 =>
      if element = voidName then .typeLoad (.unknown (element ++ arraySuffix 1))
      else .typeLoad (.unknown element)

theorem exists_missing_eq (element : String) (n : Nat) :
    ∃ problem, missing element n = .typeLoad problem := by
  cases n with
  | zero => exact ⟨_, rfl⟩
  | succ n =>
      by_cases hvoid : element = voidName
      · exact ⟨_, if_pos hvoid⟩
      · exact ⟨_, if_neg hvoid⟩

theorem loadArray_eq_error {error : Error}
    (hload : loadArray element n r = .error error r') :
    r' = r ∧ error = missing element n := by
  induction n generalizing error r' with
  | zero =>
      rw [loadArray_zero] at hload
      split at hload
      next => cases hload
      next => cases hload; exact ⟨rfl, rfl⟩
  | succ n ih =>
      rw [loadArray_succ] at hload
      split at hload
      next => cases hload
      next =>
        split at hload
        next hvoid =>
          cases hload
          rw [missing, if_pos hvoid.2, hvoid.1]
          exact ⟨rfl, rfl⟩
        next hvoid =>
          split at hload
          next => cases hload
          next inner r₁ hinner =>
            cases hload
            obtain ⟨hsame, hmissing⟩ := ih hinner
            refine ⟨hsame, hmissing.trans ?_⟩
            cases n with
            | zero =>
                have hne : element ≠ voidName := fun heq => hvoid ⟨rfl, heq⟩
                rw [missing, missing, if_neg hne]
            | succ n => rfl

/-- A failure to load a name changes nothing and depends on the name only. -/
theorem load_of_not_loadable (hname : ¬r.Loadable name) :
    load name r = .error (missing (split name).2 (split name).1) r := by
  cases hload : load name r with
  | ok t r' => exact absurd ⟨t, r', hload⟩ hname
  | error error r' =>
      obtain ⟨rfl, rfl⟩ := loadArray_eq_error hload
      rfl

/-! ## Growth by array types -/

structure Extends (r r' : Registry) : Prop where
  definition? : ∀ {t d}, r.definition? t = some d → r'.definition? t = some d
  get? : ∀ {name t}, r.get? name = some t → r'.get? name = some t
  bytesOf : ∀ name, r'.bytesOf name = r.bytesOf name
  root : r'.root = r.root
  loadable : ∀ name, r'.Loadable name ↔ r.Loadable name
  array : ∀ {t d}, ¬r.Knows t → r'.definition? t = some d →
    r'.get? d.name = some t ∧ ∃ component, d = arrayDefinition d.name component r.root

namespace Extends

theorem refl (r : Registry) : r.Extends r where
  definition? hd := hd
  get? ht := ht
  bytesOf _ := rfl
  root := rfl
  loadable _ := Iff.rfl
  array hunknown hd := absurd (knows_iff.mpr ⟨_, hd⟩) hunknown

theorem trans (hfirst : r.Extends r') (hsecond : r'.Extends r'') : r.Extends r'' where
  definition? hd := hsecond.definition? (hfirst.definition? hd)
  get? ht := hsecond.get? (hfirst.get? ht)
  bytesOf name := (hsecond.bytesOf name).trans (hfirst.bytesOf name)
  root := hsecond.root.trans hfirst.root
  loadable name := (hsecond.loadable name).trans (hfirst.loadable name)
  array := by
    intro t d hunknown hd
    by_cases hknown : r'.Knows t
    · obtain ⟨d', hd'⟩ := knows_iff.mp hknown
      cases (hsecond.definition? hd').symm.trans hd
      obtain ⟨hcurrent, harray⟩ := hfirst.array hunknown hd'
      exact ⟨hsecond.get? hcurrent, harray⟩
    · rw [← hfirst.root]
      exact hsecond.array hknown hd

theorem knows (hext : r.Extends r') (hknown : r.Knows t) : r'.Knows t := by
  obtain ⟨d, hd⟩ := knows_iff.mp hknown
  exact knows_iff.mpr ⟨d, hext.definition? hd⟩

theorem definition?_eq (hext : r.Extends r') (hknown : r.Knows t) :
    r'.definition? t = r.definition? t := by
  obtain ⟨d, hd⟩ := knows_iff.mp hknown
  rw [hd, hext.definition? hd]

theorem nameOf_eq (hext : r.Extends r') (hknown : r.Knows t) :
    r'.nameOf t = r.nameOf t := by
  rw [nameOf, nameOf, hext.definition?_eq hknown]

theorem ancestor?_eq (hext : r.Extends r') (hknown : r.Knows t) :
    r'.ancestor? t = r.ancestor? t := by
  rw [ancestor?, ancestor?, hext.definition?_eq hknown]

theorem get?_nameOf (hext : r.Extends r') (hsound : r.Sound) (hknown : r.Knows t) :
    r'.get? (r'.nameOf t) = r.get? (r.nameOf t) := by
  obtain ⟨d, hd⟩ := knows_iff.mp hknown
  obtain ⟨u, hu⟩ := hsound.named hd
  rw [hext.nameOf_eq hknown, Registry.nameOf_eq hd, hu, hext.get? hu]

end Extends

/-- An array type that can be loaded changes nothing about which names can be
loaded when it is made. -/
theorem loadable_insert_array {root : TypeId} (hbare : IsBare element)
    (hloadable : r.Loadable (element ++ arraySuffix (n + 1))) (name : String) :
    (r.insert (arrayDefinition (element ++ arraySuffix (n + 1)) c root)).Loadable name ↔
      r.Loadable name := by
  obtain ⟨other, k, hother, rfl⟩ := exists_bare name
  have hname : (element ++ arraySuffix (n + 1) = other ++ arraySuffix k) ↔
      n + 1 = k ∧ element = other := append_arraySuffix_inj hbare hother
  induction k with
  | zero =>
      rw [arraySuffix_zero, String.append_empty] at hname ⊢
      rw [loadable_zero hother, loadable_zero hother, isSome_get?_insert]
      simp [arrayDefinition, hname]
  | succ k ih =>
      have hinner : (Registry.insert r _).Loadable (other ++ arraySuffix k) ↔
          r.Loadable (other ++ arraySuffix k) :=
        ih (append_arraySuffix_inj hbare hother)
      by_cases hsame : element ++ arraySuffix (n + 1) = other ++ arraySuffix (k + 1)
      · rw [← hsame]
        refine iff_of_true ?_ hloadable
        rw [loadable_succ hbare, isSome_get?_insert]
        exact Or.inl (Or.inl rfl)
      · rw [loadable_succ hother, loadable_succ hother, hinner, isSome_get?_insert]
        simp [arrayDefinition, hsame]

theorem admits_array (hname : name ≠ "") (hsound : r.Sound) :
    r.Admits (arrayDefinition name c r.root) where
  named := hname
  ancestor hp := by cases hp; exact hsound.knows_root
  mentions hm := by cases hm

theorem extends_insert_array (hsound : r.Sound) (hbare : IsBare element)
    (hnone : r.get? (element ++ arraySuffix (n + 1)) = none)
    (hloadable : r.Loadable (element ++ arraySuffix (n + 1))) :
    r.Extends
      (r.insert (arrayDefinition (element ++ arraySuffix (n + 1)) c r.root)) where
  definition? := definition?_insert_of_some
  get? := by
    intro name t ht
    rw [get?_insert, if_neg, ht]
    rintro rfl
    rw [arrayDefinition, hnone] at ht
    cases ht
  bytesOf := by
    intro name
    rw [bytesOf_insert]
    split
    next hname =>
      rw [← hname]
      exact (hsound.bytesOf_of_get?_eq_none hnone).symm
    next => rfl
  root := rfl
  loadable := loadable_insert_array hbare hloadable
  array := by
    intro t d hunknown hd
    rw [definition?_insert] at hd
    split at hd
    next heq =>
      cases hd
      rw [get?_insert, if_pos rfl, heq]
      exact ⟨rfl, c, rfl⟩
    next => exact absurd (knows_iff.mpr ⟨d, hd⟩) hunknown

/-! ## The whole of loading -/

theorem get?_of_loadArray (hbare : IsBare element)
    (hload : loadArray element n r = .ok t r') :
    r'.get? (element ++ arraySuffix n) = some t ∧
      ∀ k, n < k → r'.get? (element ++ arraySuffix k) = r.get? (element ++ arraySuffix k) := by
  induction n generalizing t r' with
  | zero =>
      rw [loadArray_zero] at hload
      split at hload
      next ht =>
        cases hload
        rw [arraySuffix_zero, String.append_empty]
        exact ⟨ht, fun _ _ => rfl⟩
      next => cases hload
  | succ n ih =>
      rw [loadArray_succ] at hload
      split at hload
      next ht =>
        cases hload
        exact ⟨ht, fun _ _ => rfl⟩
      next =>
        split at hload
        next => cases hload
        next =>
          split at hload
          next c r₁ hinner =>
            cases hload
            refine ⟨(get?_insert ..).trans (if_pos rfl), fun k hk => ?_⟩
            have hne : element ++ arraySuffix (n + 1) ≠ element ++ arraySuffix k := by
              intro heq
              have := ((append_arraySuffix_inj hbare hbare).mp heq).1
              omega
            rw [get?_insert, arrayDefinition, if_neg hne]
            exact (ih hinner).2 k (by omega)
          next => cases hload

structure Loaded (element : String) (n : Nat) (r : Registry) (t : TypeId)
    (r' : Registry) : Prop where
  extends_ : r.Extends r'
  sound : r'.Sound
  current : r'.get? (element ++ arraySuffix n) = some t
  fresh : ∀ k, n < k →
    r'.get? (element ++ arraySuffix k) = r.get? (element ++ arraySuffix k)

theorem loaded_of_loadArray (hsound : r.Sound) (hbare : IsBare element)
    (hload : loadArray element n r = .ok t r') : Loaded element n r t r' := by
  have hfound {n : Nat} {t : TypeId}
      (ht : r.get? (element ++ arraySuffix n) = some t) : Loaded element n r t r :=
    ⟨.refl r, hsound, ht, fun _ _ => rfl⟩
  induction n generalizing t r' with
  | zero =>
      rw [loadArray_zero] at hload
      split at hload
      next ht =>
        cases hload
        exact hfound (by rwa [arraySuffix_zero, String.append_empty])
      next => cases hload
  | succ n ih =>
      have hnames := get?_of_loadArray hbare hload
      have hloadable : r.Loadable (element ++ arraySuffix (n + 1)) :=
        ⟨t, r', by rw [load_eq_loadArray hbare, hload]⟩
      rw [loadArray_succ] at hload
      split at hload
      next ht =>
        cases hload
        exact hfound ht
      next hnone =>
        split at hload
        next => cases hload
        next =>
          split at hload
          next c r₁ hinner =>
            cases hload
            have hloaded := ih hinner
            have hnone₁ := (hloaded.fresh (n + 1) (Nat.lt_succ_self n)).trans hnone
            have hloadable₁ := (hloaded.extends_.loadable _).mpr hloadable
            exact
              { extends_ := hloaded.extends_.trans
                  (extends_insert_array hloaded.sound hbare hnone₁ hloadable₁)
                sound := hloaded.sound.insert
                  (admits_array (append_arraySuffix_succ_ne hbare) hloaded.sound)
                current := hnames.1
                fresh := hnames.2 }
          next => cases hload

theorem load_eq_ok (hsound : r.Sound) (hload : load name r = .ok t r') :
    r.Extends r' ∧ r'.Sound ∧ r'.get? name = some t := by
  obtain ⟨element, n, hbare, rfl⟩ := exists_bare name
  rw [load_eq_loadArray hbare] at hload
  have hloaded := loaded_of_loadArray hsound hbare hload
  exact ⟨hloaded.extends_, hloaded.sound, hloaded.current⟩

end Forwarding.Registry
