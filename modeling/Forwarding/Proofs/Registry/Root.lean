import Forwarding.Proofs.Registry.ClassBytes
import Forwarding.Proofs.Registry.Liveness
import Forwarding.Proofs.Registry.Runs
import Forwarding.Proofs.Types.Hierarchy

/-!
# The root of the hierarchy

The root that a registry starts with is its root for good and never has an
ancestor.  It is also what its name leads to, as long as no class of that name
is defined; and then a method that mentions the name in its parameters is found
by a lookup with the root in these places.
-/

namespace Forwarding.Registry

variable {r r' : Registry} {t : TypeId} {own : String} {spec : ClassSpec}
  {operations : List Operation}

/-- Whether an operation of a run makes a type from a specification. -/
def RunMakes (spec : ClassSpec) (t : TypeId) : Registry → List Operation → Prop
  | _, [] => False
  | r, o :: rest =>
      (o.spec? = some spec ∧ ∃ r', define spec r = .ok t r') ∨ RunMakes spec t (o.apply r) rest

/-! ## Methods that mention the root -/

/-- Whether a declaration has the root wherever its specification names it. -/
structure DeclaredOver (root : TypeId) (m : MethodSpec) (declaration : Declaration TypeId) :
    Prop where
  name : declaration.shape.name = m.name
  parameters : List.Forall₂ (fun name p => name = rootTypeName → p = root) m.parameters
    declaration.shape.parameters
  result : m.result = rootTypeName → declaration.result = root

theorem Mention.Names.root {name : String} {m : Mention}
    (hroot : r.get? rootTypeName = some r.root) (hown : own ≠ rootTypeName)
    (hnames : Mention.Names own r name m) (hname : name = rootTypeName) :
    m.resolve t = r.root := by
  subst hname
  cases m with
  | self => exact absurd hnames.symm hown
  | other u =>
      have hu := hnames.2
      rw [hroot, Option.some.injEq] at hu
      exact hu.symm

theorem Signature.Resolves.declaredOver {m : MethodSpec} {s : Signature}
    (hroot : r.get? rootTypeName = some r.root) (hown : own ≠ rootTypeName)
    (hresolves : Signature.Resolves own r m s) : DeclaredOver r.root m (s.declare t) where
  name := by
    change s.spec.name = m.name
    rw [hresolves.spec_eq]
  parameters := by
    change List.Forall₂ _ m.parameters (s.parameters.map (Mention.resolve t))
    rw [List.forall₂_map_right_iff]
    exact hresolves.parameters.imp fun _ _ hnames => hnames.root hroot hown
  result := hresolves.result.root hroot hown

theorem declaredOver_of_define (hsound : r.Sound) (hroot : r.get? rootTypeName = some r.root)
    (hname : spec.name ≠ rootTypeName) (hdefine : define spec r = .ok t r') :
    ∃ d, r'.definition? t = some d ∧ d.name = spec.name ∧
      List.Forall₂ (DeclaredOver r.root) spec.methods d.methods := by
  obtain ⟨-, ancestor, declared, r₁, hext, -, -, hdeclared, rfl, rfl⟩ :=
    define_eq_ok hsound hdefine
  have hroot₁ : r₁.get? rootTypeName = some r₁.root := by
    rw [hext.root]
    exact hext.get? hroot
  refine ⟨_, definition?_nextId _ _, rfl, ?_⟩
  change List.Forall₂ _ spec.methods (declared.map (Signature.declare r₁.nextId))
  rw [List.forall₂_map_right_iff, ← hext.root]
  exact hdeclared.imp fun _ _ hresolves => hresolves.declaredOver hroot₁ hname

/-- As long as a run defines no class of the root's name, what it makes has the
root wherever this name is mentioned. -/
theorem declaredOver_of_runMakes (hsound : r.Sound)
    (hroot : r.get? rootTypeName = some r.root)
    (hnone : ¬RunDefines rootTypeName r operations) (hmakes : RunMakes spec t r operations) :
    ∃ d, (r.after operations).definition? t = some d ∧ d.name = spec.name ∧
      spec.name ≠ rootTypeName ∧ List.Forall₂ (DeclaredOver r.root) spec.methods d.methods := by
  induction operations generalizing r with
  | nil => cases hmakes
  | cons o rest ih =>
      rw [RunDefines, not_or] at hnone
      have heffect := Operation.effect hsound o
      cases hmakes with
      | inl hnow =>
          obtain ⟨hspec, r', hdefine⟩ := hnow
          have hname : spec.name ≠ rootTypeName := by
            intro heq
            exact hnone.1 ⟨spec, t, r', hspec, heq, hdefine⟩
          obtain ⟨d, hd, hdname, hmethods⟩ := declaredOver_of_define hsound hroot hname hdefine
          have happly : o.apply r = r' := by
            rw [Operation.apply_of_spec? hspec, hdefine]
            rfl
          rw [← happly] at hd
          have hafter := (reaches_after (o.apply r) rest).definition? (hsound.apply o) hd
          exact ⟨d, hafter, hdname, hname, hmethods⟩
      | inr hlater =>
          have hroot' : (o.apply r).get? rootTypeName = some (o.apply r).root := by
            rw [heffect.root]
            exact (heffect.get?_iff hsound hsound.knows_root hsound.nameOf_root).mpr
              ⟨hroot, hnone.1⟩
          have hrest := ih (hsound.apply o) hroot' hnone.2 hlater
          rwa [heffect.root] at hrest

/-! ## Looking methods up -/

/-- Whether a lookup by the shape of a declaration finds a method of that shape as
long as the declaration is listed. -/
def Finds (r : Registry) (t : TypeId) (declaration : Declaration TypeId) : Prop :=
  ∀ held limit, r.isListed held declaration = true →
    ∃ found ∈ r.declaredMethods held t, found.shape = declaration.shape ∧
      (r.view held).findMethod (limit + 1) t declaration.shape = .ok (some found)

theorem finds_of_mem {d : Definition} {declaration : Declaration TypeId}
    (hd : r.definition? t = some d) (hname : d.name ≠ rootTypeName)
    (hdeclaration : declaration ∈ d.methods) : r.Finds t declaration := by
  intro held limit hlisted
  have hmem : { declaration with owner := t : Method TypeId } ∈ r.declaredMethods held t :=
    (mem_declaredMethods_iff hd).mpr ⟨declaration, hdeclaration, hlisted, rfl⟩
  have hroot : (r.view held).isRoot t = false := by
    change (r.nameOf t == rootTypeName) = false
    rw [nameOf_eq hd]
    exact beq_eq_false_iff_ne.mpr hname
  exact TypeView.findMethod_of_mem hroot hmem

/-! ## Every run -/

theorem get?_root_initial : initial.get? rootTypeName = some initial.root := by
  have hlast : initial = (builtin.dropLast.foldl Registry.insert
      ⟨#[], ∅, ∅, ⟨builtin.length - 1⟩⟩).insert (.leaf rootTypeName .classType) := rfl
  rw [hlast, get?_insert, nextId_foldl_insert]
  rfl

theorem load_root_iff (operations : List Operation) :
    load rootTypeName (initial.after operations) =
        .ok initial.root (initial.after operations) ↔
      ¬RunDefines rootTypeName initial operations := by
  have hsound := sound_after sound_initial operations
  have hcurrent := get?_after_iff sound_initial sound_initial.knows_root
    sound_initial.nameOf_root operations
  constructor
  · intro hload
    have hroot := (load_eq_ok hsound hload).2.2
    exact (hcurrent.mp hroot).2
  · intro hnone
    exact load_of_get? (hcurrent.mpr ⟨get?_root_initial, hnone⟩)

/-- The root stays the same for good and has no ancestor.  It is what its name leads
to if and only if no class of this name has been defined, and then methods that
mention the name are found by the root. -/
theorem root_of_run (operations : List Operation) :
    (initial.after operations).root = initial.root ∧
      (initial.after operations).ancestor? initial.root = none ∧
      (load rootTypeName (initial.after operations) =
          .ok initial.root (initial.after operations) ↔
        ¬RunDefines rootTypeName initial operations) ∧
      (¬RunDefines rootTypeName initial operations →
        ∀ spec t, RunMakes spec t initial operations →
          ∃ d, (initial.after operations).definition? t = some d ∧
            List.Forall₂ (DeclaredOver initial.root) spec.methods d.methods ∧
            ∀ declaration ∈ d.methods, (initial.after operations).Finds t declaration) := by
  have hsound := sound_after sound_initial operations
  have hroot := root_after sound_initial operations
  refine ⟨hroot, ?_, load_root_iff operations, ?_⟩
  · rw [← hroot]
    exact hsound.ancestor?_root
  · intro hnone spec t hmakes
    obtain ⟨d, hd, hdname, hname, hmethods⟩ :=
      declaredOver_of_runMakes sound_initial get?_root_initial hnone hmakes
    refine ⟨d, hd, hmethods, fun declaration hdeclaration => ?_⟩
    exact finds_of_mem hd (hdname ▸ hname) hdeclaration

/-- A class with a method that takes and gives an object. -/
def objectFilter : ClassSpec :=
  ⟨"a.B", false, none, [⟨"f", [rootTypeName], rootTypeName, ⟨0⟩, []⟩], [], none⟩

theorem DeclaredOver.shape_eq {m : MethodSpec} {declaration : Declaration TypeId} {root : TypeId}
    (hover : DeclaredOver root m declaration) (hparameters : m.parameters = [rootTypeName]) :
    declaration.shape = ⟨m.name, [root]⟩ := by
  have hall := hover.parameters
  rw [hparameters, List.forall₂_cons_left_iff] at hall
  obtain ⟨p, rest, hp, hrest, hcons⟩ := hall
  rw [List.forall₂_nil_left_iff.mp hrest, hp rfl] at hcons
  rw [← hcons, ← hover.name]

theorem objectFilter_found :
    ∃ t, (¬RunDefines rootTypeName initial [.define objectFilter] ∧
        RunMakes objectFilter t initial [.define objectFilter]) ∧
      ∀ limit, ∃ found, ((initial.after [.define objectFilter]).view []).findMethod (limit + 1) t
        ⟨"f", [initial.root]⟩ = .ok (some found) := by
  have hloadable : initial.Loadable rootTypeName :=
    loadable_of_isSome (Option.isSome_of_eq_some get?_root_initial)
  have hdefined : ∃ t r', define objectFilter initial = .ok t r' := by
    apply define_succeeds sound_initial (by decide +kernel)
    · intro name hname
      cases hname
    · simp [objectFilter, Findable, hloadable]
  obtain ⟨t, r', hdefine⟩ := hdefined
  have hnone : ¬RunDefines rootTypeName initial [.define objectFilter] := by
    simp [RunDefines, Operation.Defines, Operation.spec?, objectFilter, rootTypeName]
  have hmakes : RunMakes objectFilter t initial [.define objectFilter] :=
    Or.inl ⟨rfl, r', hdefine⟩
  obtain ⟨hroot, -, -, hlookup⟩ := root_of_run [.define objectFilter]
  obtain ⟨d, -, hmethods, hfinds⟩ := hlookup hnone objectFilter t hmakes
  obtain ⟨declaration, rest, hover, -, hcons⟩ := List.forall₂_cons_left_iff.mp hmethods
  have hshape := hover.shape_eq rfl
  have hresult := hover.result rfl
  refine ⟨t, ⟨hnone, hmakes⟩, fun limit => ?_⟩
  have halive : (initial.after [.define objectFilter]).isAlive [] initial.root = true := by
    apply isAlive_of_isPinned (sound_after sound_initial _).toCoherent
    rw [isPinned_iff, hroot]
    exact Or.inr (Or.inl rfl)
  have hlisted : (initial.after [.define objectFilter]).isListed [] declaration = true := by
    simp [isListed, hshape, hresult, halive]
  have hmem : declaration ∈ d.methods := by
    rw [hcons]
    exact List.mem_cons_self
  obtain ⟨found, -, -, hfound⟩ := hfinds declaration hmem [] limit hlisted
  rw [hshape] at hfound
  exact ⟨found, hfound⟩

/-- So the name of the root may lead to another type: to a class of this name that
has been defined. -/
theorem not_always_root :
    ¬∀ operations : List Operation, load rootTypeName (initial.after operations) =
      .ok (initial.after operations).root (initial.after operations) := by
  intro hlaw
  have hname : definable rootTypeName = true := by decide +kernel
  have hload := hlaw [.define (Ledger.plainClass rootTypeName none)]
  rw [root_after sound_initial] at hload
  apply (load_root_iff _).mp hload
  have hdefine := Ledger.define_plainClass initial hname none
  exact Or.inl ⟨_, _, _, rfl, rfl, hdefine⟩

end Forwarding.Registry
