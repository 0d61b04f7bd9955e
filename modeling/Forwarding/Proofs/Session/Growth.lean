import Forwarding.Proofs.Registry.Reachable
import Forwarding.Proofs.Registry.Liveness
import Forwarding.Session.World

/-!
# Worlds that grow by array types

While nobody defines a type, registers bytes or lets go of a type, a world
changes by array types only.  Everything that was known before looks the same
afterwards, and an operation that loads names succeeds or fails alike in two
worlds that have grown from a common one.
-/

namespace Forwarding

namespace World

variable {w w' w'' base a b : World} {name : String} {t u : TypeRef}

/-- Whether a type is there.  Host types always are. -/
def Knows (w : World) : TypeRef → Prop
  | .registered id => w.registry.Knows id
  | .hosted _ => True

structure Grows (w w' : World) : Prop where
  registry : w.registry.Extends w'.registry
  sound : w'.registry.Sound
  hosts : w'.hosts = w.hosts
  alive : ∀ id, w'.registry.isAlive w'.held id = true ↔
    w.registry.isAlive w.held id = true ∨
      (¬w.registry.Knows id ∧ w'.registry.Knows id)

namespace Grows

theorem refl (hsound : w.registry.Sound) : w.Grows w where
  registry := .refl _
  sound := hsound
  hosts := rfl
  alive id := by simp

theorem trans (hfirst : w.Grows w') (hsecond : w'.Grows w'') : w.Grows w'' where
  registry := hfirst.registry.trans hsecond.registry
  sound := hsecond.sound
  hosts := hsecond.hosts.trans hfirst.hosts
  alive id := by
    have hkept : w.registry.Knows id → w'.registry.Knows id := hfirst.registry.knows
    have hkept' : w'.registry.Knows id → w''.registry.Knows id := hsecond.registry.knows
    rw [hsecond.alive, hfirst.alive]
    tauto

theorem of_extends {registry : Registry} (hsound : w.registry.Sound)
    (hext : w.registry.Extends registry) (hsound' : registry.Sound) :
    w.Grows { w with registry } where
  registry := hext
  sound := hsound'
  hosts := rfl
  alive _ := hext.isAlive_iff hsound hsound'

/-- Holding other types changes nothing as long as they are alive and none is
let go that was held before. -/
theorem hold (hgrows : w.Grows w') (hsound : w.registry.Sound) {held : List TypeId}
    (hkept : ∀ t ∈ w.held, t ∈ held)
    (hheld : ∀ t ∈ held, w'.registry.isAlive w'.held t = true) :
    w.Grows { w' with held } where
  registry := hgrows.registry
  sound := hgrows.sound
  hosts := hgrows.hosts
  alive id := by
    rw [← hgrows.alive]
    constructor
    · exact Registry.isAlive_of_held hgrows.sound.toCoherent hheld
    · rw [hgrows.alive, ← hgrows.registry.isAlive_iff hsound hgrows.sound]
      exact Registry.isAlive_mono hgrows.sound.toCoherent hkept

theorem isAlive_eq {id : TypeId} (hgrows : w.Grows w') (hid : w.registry.Knows id) :
    w'.registry.isAlive w'.held id = w.registry.isAlive w.held id := by
  rw [Bool.eq_iff_iff, hgrows.alive]
  simp [hid]

/-! ## What stays -/

theorem nameOf_eq (hgrows : w.Grows w') (ht : w.Knows t) : w'.nameOf t = w.nameOf t := by
  cases t with
  | registered id => exact hgrows.registry.nameOf_eq ht
  | hosted index => simp only [nameOf, hgrows.hosts]

theorem ancestor?_eq (hgrows : w.Grows w') (ht : w.Knows t) :
    w'.ancestor? t = w.ancestor? t := by
  cases t with
  | registered id => simp only [ancestor?, hgrows.registry.ancestor?_eq ht]
  | hosted index => simp only [ancestor?, hgrows.hosts]

theorem declaredMethods_eq {id : TypeId} (hgrows : w.Grows w') (hsound : w.registry.Sound)
    (hid : w.registry.Knows id) :
    w'.registry.declaredMethods w'.held id = w.registry.declaredMethods w.held id := by
  obtain ⟨d, hd⟩ := Registry.knows_iff.mp hid
  unfold Registry.declaredMethods
  rw [hgrows.registry.definition? hd, hd]
  dsimp only
  congr 1
  refine List.filter_congr fun m hm => ?_
  have halive (u : TypeId) (hu : m.Mentions u) :
      w'.registry.isAlive w'.held u = w.registry.isAlive w.held u :=
    hgrows.isAlive_eq (hsound.mentions hd hm hu)
  unfold Registry.isListed
  rw [halive m.result (Or.inr rfl)]
  congr 1
  rw [Bool.eq_iff_iff, List.all_eq_true, List.all_eq_true]
  exact forall₂_congr fun u hu => by rw [halive u (Or.inl hu)]

theorem methods_eq (hgrows : w.Grows w') (hsound : w.registry.Sound) (ht : w.Knows t) :
    w'.methods t = w.methods t := by
  cases t with
  | registered id => simp only [methods, hgrows.declaredMethods_eq hsound ht]
  | hosted index => simp only [methods, hgrows.hosts]

end Grows

/-! ## Registered types -/

def Holds (w : World) (t : TypeRef) : Prop :=
  ∃ id, t = .registered id ∧ w.registry.Knows id

theorem Holds.knows (ht : w.Holds t) : w.Knows t := by
  obtain ⟨id, rfl, hid⟩ := ht
  exact hid

theorem Holds.ancestor (hsound : w.registry.Sound) (ht : w.Holds t)
    (hu : w.ancestor? t = some u) : w.Holds u := by
  obtain ⟨id, rfl, -⟩ := ht
  obtain ⟨p, hp, rfl⟩ := Option.map_eq_some_iff.mp hu
  exact ⟨p, rfl, hsound.knows_of_ancestor? hp⟩

theorem holds_of_mem_methods (hsound : w.registry.Sound) (ht : w.Holds t)
    {m : Method TypeRef} (hm : m ∈ w.methods t) :
    m.owner = t ∧ ∀ u ∈ m.shape.parameters, w.Holds u := by
  obtain ⟨id, rfl, hid⟩ := ht
  obtain ⟨d, hd⟩ := Registry.knows_iff.mp hid
  obtain ⟨declared, hdeclared, rfl⟩ := List.mem_map.mp hm
  simp only [Registry.declaredMethods, hd] at hdeclared
  obtain ⟨declaration, hdeclaration, rfl⟩ := List.mem_map.mp hdeclared
  refine ⟨rfl, fun u hu => ?_⟩
  obtain ⟨parameter, hparameter, rfl⟩ := List.mem_map.mp hu
  exact ⟨parameter, rfl,
    hsound.mentions hd (List.mem_filter.mp hdeclaration).1 (Or.inl hparameter)⟩

/-! ## Current types -/

def Current (w : World) (name : String) (t : TypeRef) : Prop :=
  ∃ id, t = .registered id ∧ w.registry.get? name = some id

theorem Current.mono (hgrows : w.Grows w') (ht : w.Current name t) : w'.Current name t := by
  obtain ⟨id, rfl, hid⟩ := ht
  exact ⟨id, rfl, hgrows.registry.get? hid⟩

theorem Current.nameOf_eq (hsound : w.registry.Sound) (ht : w.Current name t) :
    w.nameOf t = name := by
  obtain ⟨id, rfl, hid⟩ := ht
  exact hsound.nameOf_of_get? hid

/-! ## Outcomes in two worlds -/

/-- Two outcomes of one operation in two worlds: both worlds have grown, and
either the values are related or the errors are the same. -/
inductive Alike {α : Type} (a b : World) (V : World → World → α → α → Prop) :
    EStateM.Result Error World α → EStateM.Result Error World α → Prop
  | ok {x y : α} {a' b' : World} : a.Grows a' → b.Grows b' → V a' b' x y →
      Alike a b V (.ok x a') (.ok y b')
  | error {error : Error} {a' b' : World} : a.Grows a' → b.Grows b' →
      Alike a b V (.error error a') (.error error b')

section

variable {α β : Type} {V : World → World → α → α → Prop}
  {V' : World → World → β → β → Prop}

theorem Alike.weaken {x y : EStateM.Result Error World α} (ha : a.Grows w)
    (hb : b.Grows w') (hxy : Alike w w' V x y) : Alike a b V x y := by
  cases hxy with
  | ok ha' hb' hv => exact .ok (ha.trans ha') (hb.trans hb') hv
  | error ha' hb' => exact .error (ha.trans ha') (hb.trans hb')

theorem Alike.bind {x y : EStateM Error World α} {f g : α → EStateM Error World β}
    (hxy : Alike a b V (x a) (y b))
    (hfg : ∀ v v' a' b', a.Grows a' → b.Grows b' → V a' b' v v' →
      Alike a' b' V' (f v a') (g v' b')) :
    Alike a b V' ((x >>= f) a) ((y >>= g) b) := by
  cases hx : x a with
  | ok v a' =>
      cases hy : y b with
      | error error b' => rw [hx, hy] at hxy; cases hxy
      | ok v' b' =>
          rw [hx, hy] at hxy
          rw [bind_of_ok hx, bind_of_ok hy]
          cases hxy with
          | ok ha hb hv =>
              exact (hfg v v' a' b' ha hb hv).weaken ha hb
  | error error a' =>
      cases hy : y b with
      | ok v' b' => rw [hx, hy] at hxy; cases hxy
      | error error' b' =>
          rw [hx, hy] at hxy
          cases hxy with
          | error ha hb =>
              rw [bind_eq_error.mpr (Or.inl hx), bind_eq_error.mpr (Or.inl hy)]
              exact .error ha hb

theorem alike_lift (ha : a.registry.Sound) (hb : b.registry.Sound) (e : Except Error α) :
    Alike a b (fun _ _ v v' => v = v' ∧ e = .ok v)
      (Provider.lift e a) (Provider.lift e b) := by
  cases e with
  | ok v => exact .ok (.refl ha) (.refl hb) ⟨rfl, rfl⟩
  | error error => exact .error (.refl ha) (.refl hb)

end

/-! ## Loading -/

theorem load_of_not_loadable (hname : ¬w.registry.Loadable name) :
    World.load name w = .error
      (Registry.missing (TypeName.split name).2 (TypeName.split name).1) w := by
  have hload := Registry.load_of_not_loadable hname
  refine map_eq_error.mpr ?_
  simp only [onRegistry, hload]

theorem load_of_loadable (hsound : w.registry.Sound) (hname : w.registry.Loadable name) :
    ∃ t w', World.load name w = .ok t w' ∧ w.Grows w' ∧ w'.Current name t := by
  obtain ⟨id, registry, hload⟩ := hname
  obtain ⟨hext, hsound', hid⟩ := Registry.load_eq_ok hsound hload
  refine ⟨.registered id, { w with registry }, map_eq_ok.mpr ⟨id, ?_, rfl⟩,
    .of_extends hsound hext hsound', id, rfl, hid⟩
  simp only [onRegistry, hload]

theorem grows_load (hsound : w.registry.Sound) (name : String) :
    w.Grows (stateAfter (World.load name w)) := by
  by_cases hname : w.registry.Loadable name
  · obtain ⟨t, w', hload, hgrows, -⟩ := load_of_loadable hsound hname
    rw [hload]
    exact hgrows
  · rw [load_of_not_loadable hname]
    exact .refl hsound

theorem alike_load (ha : base.Grows a) (hb : base.Grows b) (name : String) :
    Alike a b (fun a' b' t u => a'.Current name t ∧ b'.Current name u)
      (World.load name a) (World.load name b) := by
  by_cases hname : base.registry.Loadable name
  · obtain ⟨t, a', hload, hgrows, ht⟩ :=
      load_of_loadable ha.sound ((ha.registry.loadable name).mpr hname)
    obtain ⟨u, b', hload', hgrows', hu⟩ :=
      load_of_loadable hb.sound ((hb.registry.loadable name).mpr hname)
    rw [hload, hload']
    exact .ok hgrows hgrows' ⟨ht, hu⟩
  · rw [load_of_not_loadable fun h => hname ((ha.registry.loadable name).mp h),
      load_of_not_loadable fun h => hname ((hb.registry.loadable name).mp h)]
    exact .error (.refl ha.sound) (.refl hb.sound)

theorem alike_loadAll (ha : base.Grows a) (hb : base.Grows b) (names : List String) :
    Alike a b (fun a' b' ts us => List.Forall₂ a'.Current names ts ∧
        List.Forall₂ b'.Current names us)
      (provider.loadAll names a) (provider.loadAll names b) := by
  induction names generalizing a b with
  | nil => exact .ok (.refl ha.sound) (.refl hb.sound) ⟨.nil, .nil⟩
  | cons name rest ih =>
      refine (alike_load ha hb name).bind fun t u a₁ b₁ ha₁ hb₁ hfirst => ?_
      refine (ih (ha.trans ha₁) (hb.trans hb₁)).bind fun ts us a₂ b₂ ha₂ hb₂ hrest => ?_
      exact .ok (.refl ha₂.sound) (.refl hb₂.sound)
        ⟨.cons (hfirst.1.mono ha₂) hrest.1, .cons (hfirst.2.mono hb₂) hrest.2⟩

end World

end Forwarding
