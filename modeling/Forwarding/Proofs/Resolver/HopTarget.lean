import Forwarding.Proofs.Session.Defined
import Forwarding.Proofs.Types.BoundedLookup

/-!
# Where a hop leads

A hop looks for a method of the shape that the first call of a stub names.  The result
type that the call names as well is no part of a shape.  So of several methods of this
shape the hop takes the first that is no stub, and this is one with the result of the
call if all of them are.  How many stubs of the shape there are, and where they stand,
makes no difference.
-/

namespace Forwarding

/-! ## The nearest type -/

namespace TypeView

variable {τ : Type} {v : TypeView τ} {shape : Shape τ} {steps limit : Nat} {t u : τ}

/-- Whether a type is the nearest on the way up that declares a method of a shape, and how
many steps away it is. -/
structure Nearest (v : TypeView τ) (shape : Shape τ) (steps : Nat) (t u : τ) : Prop where
  above : v.above? steps t = some u
  declares : ∃ m ∈ v.methods u, m.shape = shape
  silent : ∀ i < steps, ∀ w, v.above? i t = some w → ∀ m ∈ v.methods w, m.shape ≠ shape

theorem not_endsWithin_of_above? (hu : v.above? steps t = some u) (hlimit : limit ≤ steps) :
    ¬v.EndsWithin limit t := by
  intro hends
  have hnone : v.above? steps t = none := hends.mono hlimit
  rw [hu] at hnone
  cases hnone

variable [DecidableEq τ]

theorem findMethod_of_nearest (hnearest : v.Nearest shape steps t u) (hlimit : steps < limit) :
    ∃ m, v.findMethod limit t shape = .ok (some m) ∧ v.declared? shape u = some m := by
  obtain ⟨m, hm, hshape⟩ := hnearest.declares
  cases hdeclared : v.declared? shape u with
  | none => exact absurd hshape (declared?_eq_none_iff.mp hdeclared m hm)
  | some found =>
      refine ⟨found, firstUp_of_nearest hlimit hnearest.above hdeclared ?_, rfl⟩
      intro i hi w hw
      exact declared?_eq_none_iff.mpr (hnearest.silent i hi w hw)

theorem findMethod_of_far (hnearest : v.Nearest shape steps t u) (hlimit : limit ≤ steps) :
    v.findMethod limit t shape = .error (.hierarchyCycle (v.name t) limit) := by
  have hsilent : ∀ i < limit, ∀ w, v.above? i t = some w → v.declared? shape w = none := by
    intro i hi w hw
    exact declared?_eq_none_iff.mpr (hnearest.silent i (Nat.lt_of_lt_of_le hi hlimit) w hw)
  exact (firstUp_of_silent hsilent).2 (not_endsWithin_of_above? hnearest.above hlimit)

end TypeView

/-- Whether a method has a shape and is no stub. -/
def Method.IsReal {τ : Type} (shape : Shape τ) (m : Method τ) : Prop :=
  m.shape = shape ∧ m.isStub = false

theorem Method.Offered.isFirst_real {τ : Type} {shape : Shape τ} {methods : List (Method τ)}
    {m real : Method τ} (hoffered : Method.Offered shape methods m) (hmem : real ∈ methods)
    (hreal : real.IsReal shape) : IsFirst (Method.IsReal shape) methods m := by
  cases hoffered with
  | real hfirst => exact hfirst
  | stub honly _ =>
      have hstub := honly real hmem hreal.1
      rw [hreal.2] at hstub
      cases hstub

/-! ## Hops -/

namespace Provider

variable {σ τ : Type} {p : Provider σ τ} {stub : Method τ} {s s' : σ} {d : Delegation}
  {descriptor : MethodDescriptor} {owner u : τ} {parameters : List τ} {steps depth : Nat}

theorem lift_ok {α : Type} (a : α) (s : σ) :
    (lift (.ok a) : EStateM Error σ α) s = .ok a s := rfl

theorem eq_of_lift {α : Type} {outcome : Except Error α} {a : α}
    (hok : (lift outcome : EStateM Error σ α) s = .ok a s') : outcome = .ok a ∧ s' = s := by
  cases outcome with
  | ok value =>
      cases hok
      exact ⟨rfl, rfl⟩
  | error error => cases hok

/-- What is found when a stub is scanned: its first call, the descriptor in it, and the
types that these name, loaded one after the other. -/
structure Scanned (p : Provider σ τ) (stub : Method τ) (s s' : σ) (d : Delegation)
    (descriptor : MethodDescriptor) (owner : τ) (parameters : List τ) : Prop where
  scanned : ∃ bytes, p.classBytes s stub.owner = .ok bytes ∧
    Delegation.find bytes stub.shape.name stub.shape.parameters.length = .ok d
  described : Descriptor.parseMethod d.descriptor = .ok descriptor
  loaded : ∃ s₁, p.load d.ownerType s = .ok owner s₁ ∧
    p.loadAll descriptor.parameterTypeNames s₁ = .ok parameters s'

variable [DecidableEq τ]

theorem target_of_find {bytes : Array UInt8} (hbytes : p.classBytes s stub.owner = .ok bytes)
    (hfind : Delegation.find bytes stub.shape.name stub.shape.parameters.length = .ok d) :
    p.target depth stub s = p.callee depth d s := by
  unfold target
  rw [bind_of_ok (get_apply s), hbytes, bind_of_ok (lift_ok bytes s), hfind,
    bind_of_ok (lift_ok d s)]

theorem target_of_find_error {bytes : Array UInt8} {error : Error}
    (hbytes : p.classBytes s stub.owner = .ok bytes)
    (hfind : Delegation.find bytes stub.shape.name stub.shape.parameters.length = .error error) :
    p.target depth stub s = .error error s := by
  unfold target
  rw [bind_of_ok (get_apply s), hbytes, bind_of_ok (lift_ok bytes s), hfind]
  rfl

theorem target_of_classBytes_error {error : Error}
    (hbytes : p.classBytes s stub.owner = .error error) :
    p.target depth stub s = .error error s := by
  unfold target
  rw [bind_of_ok (get_apply s), hbytes]
  rfl

/-- A hop gives what the lookup of the called shape gives, and nothing is no answer. -/
theorem target_of_scanned (hscanned : p.Scanned stub s s' d descriptor owner parameters) :
    p.target depth stub s =
      match (p.view s').findMethod depth owner ⟨d.name, parameters⟩ with
      | .ok (some m) => .ok m s'
      | .ok none => .error (.targetNotFound ((p.view s').name owner) d.name) s'
      | .error error => .error error s' := by
  obtain ⟨⟨bytes, hbytes, hfind⟩, hdescribed, s₁, howner, hparameters⟩ := hscanned
  have hdescriptor : (lift (Error.ofDescriptor (Descriptor.parseMethod d.descriptor)) :
      EStateM Error σ MethodDescriptor) s = .ok descriptor s := by
    rw [hdescribed]
    rfl
  rw [target_of_find hbytes hfind]
  unfold callee
  rw [bind_of_ok hdescriptor, bind_of_ok howner, bind_of_ok hparameters,
    bind_of_ok (get_apply s')]
  cases (p.view s').findMethod depth owner ⟨d.name, parameters⟩ with
  | error error => rfl
  | ok found => cases found <;> rfl

theorem exists_target_of_nearest (hscanned : p.Scanned stub s s' d descriptor owner parameters)
    (hnearest : (p.view s').Nearest ⟨d.name, parameters⟩ steps owner u) (hdepth : steps < depth) :
    ∃ m, p.target depth stub s = .ok m s' ∧
      (p.view s').declared? ⟨d.name, parameters⟩ u = some m := by
  obtain ⟨m, hfind, hdeclared⟩ := TypeView.findMethod_of_nearest hnearest hdepth
  refine ⟨m, ?_, hdeclared⟩
  rw [target_of_scanned hscanned, hfind]

theorem target_of_far (hscanned : p.Scanned stub s s' d descriptor owner parameters)
    (hnearest : (p.view s').Nearest ⟨d.name, parameters⟩ steps owner u) (hdepth : depth ≤ steps) :
    p.target depth stub s = .error (.hierarchyCycle ((p.view s').name owner) depth) s' := by
  rw [target_of_scanned hscanned, TypeView.findMethod_of_far hnearest hdepth]

theorem follow_of_target_ok {limits : Limits} {m : Method τ}
    (htarget : p.target limits.hierarchyDepth stub s = .ok m s') (hreal : m.isStub = false)
    (k : Nat) : p.follow limits (k + 1) stub s = .ok m s' := by
  rw [Provider.follow, bind_of_ok htarget, if_neg (by simp [hreal])]
  rfl

theorem follow_of_target_error {limits : Limits} {error : Error}
    (htarget : p.target limits.hierarchyDepth stub s = .error error s') (k : Nat) :
    p.follow limits (k + 1) stub s = .error error s' :=
  bind_eq_error.mpr (Or.inl htarget)

/-- Whether a method gives what the descriptor of a call names as its result. -/
def Gives (p : Provider σ τ) (s : σ) (descriptor : MethodDescriptor) (m : Method τ) : Prop :=
  (p.view s).name m.result = ReturnType.typeName descriptor.result

end Provider

/-! ## Hops in a class that has been defined -/

namespace World

section

variable {w : World} {t : TypeRef} {m : Method TypeRef} {className : String}
  {content : Array UInt8} {profile : Profile} {profiles : List Profile} {d : Delegation}
  {result : Option FieldType} {shape : Shape TypeRef}

theorem Defined.scanned (hdefined : w.Defined t className content profiles)
    (hlists : w.Lists t profile m) (hnone : profile.parameters = [])
    (hfind : Delegation.find content profile.name 0 = .ok d) (howner : d.ownerType = className)
    (hdescriptor : Descriptor.parseMethod d.descriptor = .ok ⟨[], result⟩) :
    provider.Scanned m w w d ⟨[], result⟩ t [] where
  scanned := by
    refine ⟨content, ?_, ?_⟩
    · rw [hlists.owner]
      exact hdefined.bytes
    · rw [hlists.shape hnone]
      exact hfind
  described := hdescriptor
  loaded := ⟨w, howner ▸ hdefined.load, rfl⟩

theorem Defined.nearest (hdefined : w.Defined t className content profiles)
    (hroot : className ≠ rootTypeName) (hm : m ∈ w.methods t) (hshape : m.shape = shape) :
    w.view.Nearest shape 0 t t where
  above := by
    apply TypeView.above?_zero
    rw [TypeView.isRoot, beq_iff_eq]
    change w.nameOf t ≠ rootTypeName
    rwa [hdefined.name]
  declares := ⟨m, hm, hshape⟩
  silent _ hi := absurd hi (Nat.not_lt_zero _)

theorem Defined.findMethod {depth : Nat} (hdefined : w.Defined t className content profiles)
    (hroot : className ≠ rootTypeName) (hdeclared : w.view.declared? shape t = some m)
    (hdepth : 0 < depth) : w.view.findMethod depth t shape = .ok (some m) := by
  obtain ⟨hm, hshape⟩ := TypeView.mem_of_declared? hdeclared
  obtain ⟨found, hfind, hfound⟩ :=
    TypeView.findMethod_of_nearest (hdefined.nearest hroot hm hshape) hdepth
  cases hfound.symm.trans hdeclared
  exact hfind

/-- A stub whose first call is to a method of its own class without parameters leads to the
method of the class that is preferred. -/
theorem Defined.target {stub : Method TypeRef} {depth : Nat}
    (hdefined : w.Defined t className content profiles) (hroot : className ≠ rootTypeName)
    (hscanned : provider.Scanned stub w w d ⟨[], result⟩ t [])
    (hdeclared : w.view.declared? ⟨d.name, []⟩ t = some m) (hdepth : 0 < depth) :
    provider.target depth stub w = .ok m w := by
  have hfind : (provider.view w).findMethod depth t ⟨d.name, []⟩ = .ok (some m) :=
    hdefined.findMethod hroot hdeclared hdepth
  rw [Provider.target_of_scanned hscanned, hfind]

end

/-! ## Hops among overloads -/

def callOfF : Delegation :=
  ⟨"T", "g", "()I", false, 0⟩

def callOfH : Delegation :=
  ⟨"T", "h", "()V", false, 0⟩

theorem find_callOfF : Delegation.find resultOverloads "f" 0 = .ok callOfF := by
  have hcomputed : (Delegation.find resultOverloads "f" 0).toOption = some callOfF := by
    decide +kernel
  exact except_toOption_eq_some.mp hcomputed

theorem find_callOfH : Delegation.find resultOverloads "h" 0 = .ok callOfH := by
  have hcomputed : (Delegation.find resultOverloads "h" 0).toOption = some callOfH := by
    decide +kernel
  exact except_toOption_eq_some.mp hcomputed

theorem parseMethod_callOfF :
    Descriptor.parseMethod callOfF.descriptor = .ok ⟨[], some ⟨0, .base .int⟩⟩ := by
  have hcomputed : (Descriptor.parseMethod callOfF.descriptor).toOption =
      some ⟨[], some ⟨0, .base .int⟩⟩ := by
    decide +kernel
  exact except_toOption_eq_some.mp hcomputed

theorem parseMethod_callOfH : Descriptor.parseMethod callOfH.descriptor = .ok ⟨[], none⟩ := by
  have hcomputed : (Descriptor.parseMethod callOfH.descriptor).toOption = some ⟨[], none⟩ := by
    decide +kernel
  exact except_toOption_eq_some.mp hcomputed

section

variable {w : World} {t : TypeRef} {f long int h : Method TypeRef}

theorem Overloads.isStub_f (hmethods : w.Overloads t f long int h) : f.isStub = true :=
  hmethods.f.isStub.trans (by decide)

theorem Overloads.isStub_long (hmethods : w.Overloads t f long int h) : long.isStub = false :=
  hmethods.long.isStub.trans (by decide)

theorem Overloads.isStub_int (hmethods : w.Overloads t f long int h) : int.isStub = false :=
  hmethods.int.isStub.trans (by decide)

theorem Overloads.isStub_h (hmethods : w.Overloads t f long int h) : h.isStub = true :=
  hmethods.h.isStub.trans (by decide)

/-- The class has a `g` with the result that the stub calls for. -/
theorem Overloads.exists_real (hmethods : w.Overloads t f long int h) :
    ∃ m ∈ w.view.methods t, m.IsReal ⟨"g", []⟩ ∧
      provider.Gives w ⟨[], some ⟨0, .base .int⟩⟩ m := by
  have hint : int ∈ w.methods t := by simp [hmethods.methods]
  have hgives : w.nameOf int.result = ReturnType.typeName (some ⟨0, .base .int⟩) :=
    hmethods.int.result.trans (by decide +kernel)
  exact ⟨int, hint, ⟨hmethods.int.shape rfl, hmethods.isStub_int⟩, hgives⟩

theorem Overloads.declared?_eq (hmethods : w.Overloads t f long int h) (shape : Shape TypeRef) :
    w.view.declared? shape t =
      Method.preferred? ([f, long, int, h].filter (·.shape = shape)) := by
  rw [← hmethods.methods]
  rfl

theorem Overloads.declared?_f (hmethods : w.Overloads t f long int h) :
    w.view.declared? ⟨"f", []⟩ t = some f := by
  rw [hmethods.declared?_eq]
  simp [Method.preferred?, hmethods.f.shape, hmethods.long.shape, hmethods.int.shape,
    hmethods.h.shape, hmethods.isStub_f]

theorem Overloads.declared?_g (hmethods : w.Overloads t f long int h) :
    w.view.declared? ⟨"g", []⟩ t = some long := by
  rw [hmethods.declared?_eq]
  simp [Method.preferred?, hmethods.f.shape, hmethods.long.shape, hmethods.int.shape,
    hmethods.h.shape, hmethods.isStub_long]

theorem Overloads.declared?_h (hmethods : w.Overloads t f long int h) :
    w.view.declared? ⟨"h", []⟩ t = some h := by
  rw [hmethods.declared?_eq]
  simp [Method.preferred?, hmethods.f.shape, hmethods.long.shape, hmethods.int.shape,
    hmethods.h.shape, hmethods.isStub_h]

variable (hhas : w.HasOverloads t) (hmethods : w.Overloads t f long int h)
include hhas hmethods

theorem Overloads.scanned_f :
    provider.Scanned f w w callOfF ⟨[], some ⟨0, .base .int⟩⟩ t [] :=
  hhas.scanned hmethods.f rfl find_callOfF (by decide +kernel) parseMethod_callOfF

theorem Overloads.scanned_h : provider.Scanned h w w callOfH ⟨[], none⟩ t [] :=
  hhas.scanned hmethods.h rfl find_callOfH (by decide +kernel) parseMethod_callOfH

theorem Overloads.nearest_g : w.view.Nearest ⟨"g", []⟩ 0 t t :=
  hhas.nearest (by decide) (by simp [hmethods.methods]) (hmethods.long.shape rfl)

theorem Overloads.target_f {depth : Nat} (hdepth : 0 < depth) :
    provider.target depth f w = .ok long w :=
  hhas.target (by decide) (hmethods.scanned_f hhas) hmethods.declared?_g hdepth

theorem Overloads.target_f_zero :
    provider.target 0 f w = .error (.hierarchyCycle "T" 0) w := by
  rw [← hhas.name]
  exact Provider.target_of_far (hmethods.scanned_f hhas) (hmethods.nearest_g hhas) (Nat.le_refl 0)

theorem Overloads.target_h {depth : Nat} (hdepth : 0 < depth) :
    provider.target depth h w = .ok h w :=
  hhas.target (by decide) (hmethods.scanned_h hhas) hmethods.declared?_h hdepth

end

end World

/-! ## The method that a hop takes -/

namespace Provider

open World

section

variable {σ τ : Type} [DecidableEq τ] {p : Provider σ τ} {stub : Method τ} {s s' : σ}
  {d : Delegation} {descriptor : MethodDescriptor} {owner u : τ} {parameters : List τ}
  {steps : Nat}

/-- If the nearest type that declares the called shape has a method of it that is no stub
and gives the result of the call, the hop leads to the first that is no stub, as far up as
the limit reaches.  That one gives the result of the call if all that are no stubs do. -/
theorem takes_first_real (hscanned : p.Scanned stub s s' d descriptor owner parameters)
    (hnearest : (p.view s').Nearest ⟨d.name, parameters⟩ steps owner u)
    (hreal : ∃ m ∈ (p.view s').methods u, m.IsReal ⟨d.name, parameters⟩ ∧
      p.Gives s' descriptor m) (depth : Nat) :
    (steps < depth →
      ∃ m, p.target depth stub s = .ok m s' ∧
        IsFirst (Method.IsReal ⟨d.name, parameters⟩) ((p.view s').methods u) m ∧
        ((∀ other ∈ (p.view s').methods u, other.IsReal ⟨d.name, parameters⟩ →
          p.Gives s' descriptor other) → p.Gives s' descriptor m)) ∧
    (depth ≤ steps →
      p.target depth stub s = .error (.hierarchyCycle ((p.view s').name owner) depth) s') := by
  constructor
  · intro hdepth
    obtain ⟨m, htarget, hdeclared⟩ := exists_target_of_nearest hscanned hnearest hdepth
    obtain ⟨real, hmem, hisReal, -⟩ := hreal
    have hfirst := (TypeView.offered_of_declared? hdeclared).isFirst_real hmem hisReal
    refine ⟨m, htarget, hfirst, fun hall => ?_⟩
    obtain ⟨earlier, later, hmethods, hm, -⟩ := hfirst
    refine hall m ?_ hm
    rw [hmethods]
    exact List.mem_append_right earlier List.mem_cons_self
  · exact target_of_far hscanned hnearest

end

theorem takes_first_real_overloads :
    ∃ (w : World) (t : TypeRef) (f : Method TypeRef), w.registry.Reachable ∧
      f ∈ w.methods t ∧ f.isStub = true ∧
      provider.Scanned f w w callOfF ⟨[], some ⟨0, .base .int⟩⟩ t [] ∧
      w.view.Nearest ⟨"g", []⟩ 0 t t ∧
      (∃ m ∈ w.view.methods t, m.IsReal ⟨"g", []⟩ ∧
        provider.Gives w ⟨[], some ⟨0, .base .int⟩⟩ m) ∧
      (∃ m, provider.target 1 f w = .ok m w ∧
        IsFirst (Method.IsReal ⟨"g", []⟩) (w.view.methods t) m) ∧
      provider.target 0 f w = .error (.hierarchyCycle "T" 0) w := by
  obtain ⟨w, t, hhas⟩ := exists_hasOverloads
  obtain ⟨f, long, int, h, hmethods⟩ := hhas.exists_overloads
  have hscanned := hmethods.scanned_f hhas
  have hnearest := hmethods.nearest_g hhas
  have hreal := hmethods.exists_real
  have hmem : f ∈ w.methods t := by simp [hmethods.methods]
  obtain ⟨m, htarget, hfirst, -⟩ :=
    (takes_first_real hscanned hnearest hreal 1).1 Nat.one_pos
  have hfar := (takes_first_real hscanned hnearest hreal 0).2 (Nat.le_refl 0)
  have hname : (provider.view w).name t = "T" := hhas.name
  rw [hname] at hfar
  exact ⟨w, t, f, hhas.reachable, hmem, hmethods.isStub_f, hscanned, hnearest, hreal,
    ⟨m, htarget, hfirst⟩, hfar⟩

/-- So a hop need not lead to a method with the result that the stub calls for, although
the type that it comes to has one. -/
theorem not_always_result :
    ¬∀ (w w' : World) (stub : Method TypeRef) (d : Delegation) (descriptor : MethodDescriptor)
        (owner u : TypeRef) (parameters : List TypeRef) (steps depth : Nat),
      w.registry.Reachable → stub ∈ w.methods stub.owner → stub.isStub = true →
      provider.Scanned stub w w' d descriptor owner parameters →
      w'.view.Nearest ⟨d.name, parameters⟩ steps owner u → steps < depth →
      (∃ m ∈ w'.view.methods u, m.IsReal ⟨d.name, parameters⟩ ∧
        provider.Gives w' descriptor m) →
      ∃ m, provider.target depth stub w = .ok m w' ∧ provider.Gives w' descriptor m := by
  intro hlaw
  obtain ⟨w, t, hhas⟩ := exists_hasOverloads
  obtain ⟨f, long, int, h, hmethods⟩ := hhas.exists_overloads
  have hmem : f ∈ w.methods f.owner := by simp [hmethods.f.owner, hmethods.methods]
  obtain ⟨m, htarget, hgives⟩ := hlaw w w f callOfF _ t t [] 0 1 hhas.reachable hmem
    hmethods.isStub_f (hmethods.scanned_f hhas) (hmethods.nearest_g hhas) Nat.one_pos
    hmethods.exists_real
  cases (hmethods.target_f hhas Nat.one_pos).symm.trans htarget
  -- The method found gives a `long`, and the stub calls for an `int`.
  have hname : "long" = ReturnType.typeName (some ⟨0, .base .int⟩) :=
    hmethods.long.result.symm.trans hgives
  revert hname
  decide +kernel

end Provider

end Forwarding
