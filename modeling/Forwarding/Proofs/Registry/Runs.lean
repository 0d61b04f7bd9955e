import Forwarding.Proofs.Registry.Reachable

/-!
# Runs of operations

An operation does one of three things: it adds array types at most, it makes a
definition, or it attaches bytes to a current definition.  So a type stays the
current one of its name until an operation defines the name anew, and never
becomes it again.
-/

namespace Forwarding.Registry

variable {r r' : Registry} {t : TypeId} {name : String} {bytes : Array UInt8} {o : Operation}

/-! ## One operation -/

/-- The class that an operation is to define. -/
def Operation.spec? : Operation → Option ClassSpec
  | .load _ => none
  | .define spec => some spec
  | .defineClassFile bytes => (specOfClassFile bytes).toOption
  | .registerBytes _ _ => none

/-- Whether an operation makes a definition of a name. -/
def Operation.Defines (r : Registry) (name : String) (o : Operation) : Prop :=
  ∃ spec t r', o.spec? = some spec ∧ spec.name = name ∧ Registry.define spec r = .ok t r'

/-- What becomes of a registry by an operation. -/
inductive Operation.Effect (r : Registry) (o : Operation) : Registry → Prop
  | grows {r' : Registry} : r.Extends r' → r'.Sound → (∀ name, ¬o.Defines r name) →
      Effect r o r'
  | defines {r₁ : Registry} (d : Definition) (bytes : Option (Array UInt8)) :
      (∀ name, o.Defines r name ↔ d.name = name) → r.Extends r₁ → r₁.Sound →
      Effect r o ((r₁.insert d).attachBytes d.name bytes)
  | attaches {name : String} {bytes : Array UInt8} {t : TypeId} :
      o = .registerBytes name bytes → r.get? name = some t →
      Effect r o (r.setBytes name bytes)

namespace Operation

theorem not_defines (hspec : o.spec? = none) (name : String) : ¬o.Defines r name := by
  intro hdefines
  obtain ⟨spec, t, r', hsome, -⟩ := hdefines
  rw [hspec] at hsome
  cases hsome

theorem apply_of_spec? {spec : ClassSpec} (hspec : o.spec? = some spec) :
    o.apply r = stateAfter (Registry.define spec r) := by
  cases o with
  | load name => cases hspec
  | define other => cases hspec; rfl
  | registerBytes name bytes => cases hspec
  | defineClassFile bytes =>
      have hread := except_toOption_eq_some.mp hspec
      change stateAfter (Registry.defineClassFile bytes r) = _
      unfold Registry.defineClassFile
      rw [hread]

theorem defines_iff {spec : ClassSpec} (hspec : o.spec? = some spec) :
    o.Defines r name ↔ spec.name = name ∧ ∃ t r', Registry.define spec r = .ok t r' := by
  simp only [Defines, hspec, Option.some.injEq]
  constructor
  · rintro ⟨_, t, r', rfl, hname, hdefine⟩
    exact ⟨hname, t, r', hdefine⟩
  · rintro ⟨hname, t, r', hdefine⟩
    exact ⟨spec, t, r', rfl, hname, hdefine⟩

theorem effect_of_spec? {spec : ClassSpec} (hsound : r.Sound) (hspec : o.spec? = some spec) :
    o.Effect r (o.apply r) := by
  rw [apply_of_spec? hspec]
  cases hdefine : Registry.define spec r with
  | error error r' =>
      obtain ⟨hext, hsound'⟩ := define_eq_error hsound hdefine
      exact .grows hext hsound' fun name => by simp [defines_iff hspec, hdefine]
  | ok t r' =>
      have hdefines (name : String) : o.Defines r name ↔ spec.name = name := by
        simp [defines_iff hspec, hdefine]
      obtain ⟨-, ancestor, declared, r₁, hext, hsound₁, -, -, -, rfl⟩ :=
        define_eq_ok hsound hdefine
      exact .defines (classDefinition spec ancestor declared r₁.nextId) spec.classBytes hdefines
        hext hsound₁

theorem effect (hsound : r.Sound) (o : Operation) : o.Effect r (o.apply r) := by
  cases hspec : o.spec? with
  | some spec => exact effect_of_spec? hsound hspec
  | none =>
      have hnone := not_defines (r := r) hspec
      cases o with
      | load name =>
          have hgrown := grown_load hsound name
          exact .grows hgrown.extends_ hgrown.sound hnone
      | define spec => cases hspec
      | defineClassFile bytes =>
          change Effect r _ (stateAfter (Registry.defineClassFile bytes r))
          unfold Registry.defineClassFile
          cases hread : specOfClassFile bytes with
          | error error => exact .grows (.refl r) hsound hnone
          | ok spec =>
              rw [spec?, hread] at hspec
              cases hspec
      | registerBytes name bytes =>
          change Effect r _ (stateAfter (Registry.registerBytes name bytes r))
          unfold Registry.registerBytes
          rw [bind_of_ok (get_apply r)]
          split
          next hname =>
            obtain ⟨t, ht⟩ := exists_get?_of_contains hname
            exact .attaches rfl ht
          next => exact .grows (.refl r) hsound hnone

/-! ## What stays -/

theorem Effect.root (heffect : o.Effect r r') : r'.root = r.root := by
  cases heffect with
  | grows hext _ _ => exact hext.root
  | defines d bytes _ hext _ => cases bytes <;> exact hext.root
  | attaches _ _ => rfl

/-- A type that exists stays the current one of its name unless the operation
defines the name anew, and does not become it. -/
theorem Effect.get?_iff (heffect : o.Effect r r') (hsound : r.Sound) (hknown : r.Knows t)
    (hname : r.nameOf t = name) :
    r'.get? name = some t ↔ r.get? name = some t ∧ ¬o.Defines r name := by
  have hnamed : ∃ u, r.get? name = some u := by
    obtain ⟨d, hd⟩ := knows_iff.mp hknown
    rw [← hname, Registry.nameOf_eq hd]
    exact hsound.named hd
  obtain ⟨u, hu⟩ := hnamed
  cases heffect with
  | grows hext _ hnone => simp [hext.get? hu, hu, hnone name]
  | @attaches other bytes _ ho _ =>
      have hnone : ¬o.Defines r name := not_defines (by rw [ho]; rfl) name
      have hsame : (r.setBytes other bytes).get? name = r.get? name := rfl
      simp [hnone, hsame]
  | @defines r₁ d bytes hdefines hext _ =>
      rw [get?_attachBytes, get?_insert, hdefines]
      by_cases hd : d.name = name
      · have hne : r₁.nextId ≠ t := by
          intro heq
          exact not_knows_nextId (heq ▸ hext.knows hknown)
        simp [hd, hne]
      · simp [hd, hext.get? hu, hu]

/-- The bytes of a name stay what they are unless the operation defines the name
or attaches other bytes to it. -/
theorem Effect.bytesOf (heffect : o.Effect r r') (hnone : ¬o.Defines r name)
    (hkept : ∀ other, o = .registerBytes name other → other = bytes)
    (hbytes : r.bytesOf name = .ok bytes) : r'.bytesOf name = .ok bytes := by
  cases heffect with
  | grows hext _ _ => rw [hext.bytesOf, hbytes]
  | @attaches other attached _ ho _ =>
      rw [bytesOf_setBytes]
      by_cases hother : other = name
      · subst hother
        rw [if_pos rfl, hkept attached ho]
      · rw [if_neg hother, hbytes]
  | @defines r₁ d attached hdefines hext _ =>
      have hd : d.name ≠ name := fun hd => hnone ((hdefines name).mpr hd)
      have hinsert : (r₁.insert d).bytesOf name = .ok bytes := by
        rw [bytesOf_insert, if_neg hd, hext.bytesOf, hbytes]
      cases attached with
      | none => exact hinsert
      | some attached =>
          change ((r₁.insert d).setBytes d.name attached).bytesOf name = _
          rw [bytesOf_setBytes, if_neg hd, hinsert]

theorem knows_apply (hsound : r.Sound) (hknown : r.Knows t) : (o.apply r).Knows t := by
  obtain ⟨d, hd⟩ := knows_iff.mp hknown
  exact knows_iff.mpr ⟨d, definition?_apply hsound o hd⟩

theorem nameOf_apply (hsound : r.Sound) (hknown : r.Knows t) :
    (o.apply r).nameOf t = r.nameOf t := by
  obtain ⟨d, hd⟩ := knows_iff.mp hknown
  rw [Registry.nameOf_eq hd, Registry.nameOf_eq (definition?_apply hsound o hd)]

end Operation

/-! ## Runs -/

/-- The registry after a number of operations, whether they have succeeded or
not. -/
def after (r : Registry) (operations : List Operation) : Registry :=
  operations.foldl (fun r o => o.apply r) r

/-- Whether one of the operations of a run makes a definition of a name. -/
def RunDefines (name : String) : Registry → List Operation → Prop
  | _, [] => False
  | r, o :: rest => o.Defines r name ∨ RunDefines name (o.apply r) rest

theorem after_cons (r : Registry) (o : Operation) (rest : List Operation) :
    r.after (o :: rest) = (o.apply r).after rest := rfl

theorem reaches_after (r : Registry) (operations : List Operation) :
    r.Reaches (r.after operations) := by
  have hrun : ∀ r', r.Reaches r' → r.Reaches (r'.after operations) := by
    induction operations with
    | nil => exact fun r' hr' => hr'
    | cons o rest ih => exact fun r' hr' => ih (o.apply r') (hr'.step o)
  exact hrun r .refl

theorem sound_after (hsound : r.Sound) (operations : List Operation) :
    (r.after operations).Sound :=
  (reaches_after r operations).sound hsound

theorem nameOf_after (hsound : r.Sound) (hknown : r.Knows t) (operations : List Operation) :
    (r.after operations).nameOf t = r.nameOf t := by
  obtain ⟨d, hd⟩ := knows_iff.mp hknown
  rw [nameOf_eq hd, nameOf_eq ((reaches_after r operations).definition? hsound hd)]

theorem root_after (hsound : r.Sound) (operations : List Operation) :
    (r.after operations).root = r.root := by
  induction operations generalizing r with
  | nil => rfl
  | cons o rest ih => exact (ih (hsound.apply o)).trans (Operation.effect hsound o).root

/-- A type is the current one of its name after a run if and only if it was so
before and no operation of the run has defined the name. -/
theorem get?_after_iff (hsound : r.Sound) (hknown : r.Knows t) (hname : r.nameOf t = name)
    (operations : List Operation) :
    (r.after operations).get? name = some t ↔
      r.get? name = some t ∧ ¬RunDefines name r operations := by
  induction operations generalizing r with
  | nil => simp [after, RunDefines]
  | cons o rest ih =>
      have hknown' := Operation.knows_apply (o := o) hsound hknown
      have hname' := (Operation.nameOf_apply (o := o) hsound hknown).trans hname
      rw [after_cons, ih (hsound.apply o) hknown' hname',
        (Operation.effect hsound o).get?_iff hsound hknown hname, RunDefines, not_or, and_assoc]

theorem bytesOf_after (hsound : r.Sound) {operations : List Operation}
    (hnone : ¬RunDefines name r operations)
    (hkept : ∀ other, .registerBytes name other ∈ operations → other = bytes)
    (hbytes : r.bytesOf name = .ok bytes) : (r.after operations).bytesOf name = .ok bytes := by
  induction operations generalizing r with
  | nil => exact hbytes
  | cons o rest ih =>
      rw [RunDefines, not_or] at hnone
      apply ih (hsound.apply o) hnone.2
      · intro other hother
        exact hkept other (List.mem_cons_of_mem o hother)
      · apply (Operation.effect hsound o).bytesOf hnone.1 _ hbytes
        intro other hother
        exact hkept other (hother ▸ List.mem_cons_self)

end Forwarding.Registry
