import Forwarding.Proofs.Registry.Frame
import Forwarding.Proofs.Registry.Root

/-!
# Which methods stay listed

A signature does not keep the types alive that it mentions.  But when a class is made,
every type that its signatures mention is the current one of its name, and the registry
holds a current type until its name is defined again.  So a method can disappear only
after a type that it mentions has been replaced, and no method disappears in a run that
defines no name twice.
-/

namespace Forwarding.Registry

variable {r r' : Registry} {t u : TypeId} {name : String} {o : Operation} {spec : ClassSpec}
  {first rest : List Operation} {m : MethodSpec} {declaration : Declaration TypeId}
  {held : List TypeId}

/-! ## What a class is made with -/

/-- Whether a declaration is what a specification says, with the types that its names
lead to. -/
structure Declares (r : Registry) (m : MethodSpec) (declaration : Declaration TypeId) :
    Prop where
  name : declaration.shape.name = m.name
  parameters : List.Forall₂ (fun name p => r.get? name = some p) m.parameters
    declaration.shape.parameters
  result : r.get? m.result = some declaration.result
  flags : declaration.flags = m.flags
  annotations : declaration.annotations = m.annotations

theorem Mention.Names.current {d : Definition} {bytes : Option (Array UInt8)} {mention : Mention}
    (hnames : Mention.Names d.name r name mention) :
    ((r.insert d).attachBytes d.name bytes).get? name = some (mention.resolve r.nextId) := by
  by_cases hown : name = d.name
  · subst hown
    cases mention with
    | self => rw [get?_attachBytes, get?_insert, if_pos rfl, Mention.resolve]
    | other u => exact absurd rfl hnames.1
  · exact hnames.get?_of_define rfl hown

theorem declares_of_resolves {d : Definition} {bytes : Option (Array UInt8)} {s : Signature}
    (hresolves : Signature.Resolves d.name r m s) :
    Declares ((r.insert d).attachBytes d.name bytes) m (s.declare r.nextId) where
  name := congrArg MethodSpec.name hresolves.spec_eq
  parameters := by
    change List.Forall₂ _ m.parameters (s.parameters.map (Mention.resolve r.nextId))
    rw [List.forall₂_map_right_iff]
    exact hresolves.parameters.imp fun _ _ hnames => hnames.current
  result := hresolves.result.current
  flags := congrArg MethodSpec.flags hresolves.spec_eq
  annotations := congrArg MethodSpec.annotations hresolves.spec_eq

theorem declares_of_define (hsound : r.Sound) (hdefine : define spec r = .ok t r') :
    ∃ d, r'.definition? t = some d ∧ List.Forall₂ (Declares r') spec.methods d.methods := by
  obtain ⟨-, ancestor, declared, r₁, -, -, -, hdeclared, rfl, rfl⟩ :=
    define_eq_ok hsound hdefine
  refine ⟨_, definition?_nextId _ _, ?_⟩
  change List.Forall₂ _ spec.methods (declared.map (Signature.declare r₁.nextId))
  rw [List.forall₂_map_right_iff]
  exact hdeclared.imp fun _ _ hresolves => declares_of_resolves hresolves

theorem Declares.exists_current (hdeclares : Declares r m declaration)
    (hu : declaration.Mentions u) : ∃ name, r.get? name = some u := by
  cases hu with
  | inl hparameter => exact exists_of_forall₂ hdeclares.parameters hparameter
  | inr hresult => exact ⟨m.result, hresult ▸ hdeclares.result⟩

/-! ## Types that are replaced -/

/-- Whether a type is the current one of its name and a run defines the name. -/
def Replaces (r : Registry) (operations : List Operation) (u : TypeId) : Prop :=
  r.get? (r.nameOf u) = some u ∧ RunDefines (r.nameOf u) r operations

theorem isAlive_of_not_replaces (hsound : r.Sound) (hu : r.get? name = some u)
    (hkept : u = r.root ∨ ¬r.Replaces rest u) : (r.after rest).isAlive held u = true := by
  have hknown := hsound.knows_of_get? hu
  have hname := hsound.nameOf_of_get? hu
  apply isAlive_of_isPinned (sound_after hsound rest).toCoherent
  rw [isPinned_iff, root_after hsound, nameOf_after hsound hknown]
  -- Its name keeps the type alive, as long as the run does not give the name away.
  cases hkept with
  | inl hroot => exact Or.inr (Or.inl hroot)
  | inr hkept =>
      rw [Replaces, hname] at hkept
      have hnone : ¬RunDefines name r rest := fun hdefines => hkept ⟨hu, hdefines⟩
      rw [hname]
      exact Or.inl ((get?_after_iff hsound hknown hname rest).mpr ⟨hu, hnone⟩)

theorem isListed_of_not_replaces (hsound : r.Sound) (hdeclares : Declares r m declaration)
    (hkept : ∀ u, declaration.Mentions u → u = r.root ∨ ¬r.Replaces rest u) :
    (r.after rest).isListed held declaration = true := by
  have halive (u : TypeId) (hu : declaration.Mentions u) :
      (r.after rest).isAlive held u = true := by
    obtain ⟨name, hcurrent⟩ := hdeclares.exists_current hu
    exact isAlive_of_not_replaces hsound hcurrent (hkept u hu)
  rw [isListed, Bool.and_eq_true, List.all_eq_true]
  exact ⟨fun u hu => halive u (Or.inl hu), halive _ (Or.inr rfl)⟩

/-- A method as a type that declares it lists it. -/
def ownedBy (t : TypeId) (declaration : Declaration TypeId) : Method TypeId :=
  { declaration with owner := t }

/-- A new class lists all its methods. -/
theorem declaredMethods_of_define (hreachable : r.Reachable)
    (hdefine : define spec r = .ok t r') :
    ∃ declared, List.Forall₂ (Declares r') spec.methods declared ∧
      ∀ held, r'.declaredMethods held t = declared.map (ownedBy t) := by
  obtain ⟨d, hd, hdeclares⟩ := declares_of_define hreachable.sound hdefine
  refine ⟨d.methods, hdeclares, fun held => ?_⟩
  have hlisted : d.methods.filter (r'.isListed held) = d.methods := by
    rw [List.filter_eq_self]
    intro declaration hdeclaration
    obtain ⟨m, hm⟩ := exists_of_forall₂ hdeclares hdeclaration
    have hsound := (hreachable.define hdefine).sound
    have hkept : ∀ u, declaration.Mentions u → u = r'.root ∨ ¬r'.Replaces [] u :=
      fun _ _ => Or.inr And.right
    have hafter : (r'.after []).isListed held declaration = true :=
      isListed_of_not_replaces hsound hm hkept
    exact hafter
  unfold declaredMethods
  rw [hd]
  dsimp only
  rw [hlisted]
  rfl

end Forwarding.Registry
