import Forwarding.Proofs.Registry.Defining

/-!
# Every registry that comes about

A registry is used by loading names, defining types and registering bytes.
Whether an operation succeeds or not, it keeps the registry sound and every
definition as it was made.
-/

namespace Forwarding.Registry

variable {r r' : Registry} {t : TypeId}

/-! ## Operations -/

inductive Operation
  | load (name : String)
  | define (spec : ClassSpec)
  | defineClassFile (bytes : Array UInt8)
  | registerBytes (name : String) (bytes : Array UInt8)

/-- The registry after an operation, whether it has succeeded or not. -/
def Operation.apply (r : Registry) : Operation → Registry
  | .load name => stateAfter (Registry.load name r)
  | .define spec => stateAfter (Registry.define spec r)
  | .defineClassFile bytes => stateAfter (Registry.defineClassFile bytes r)
  | .registerBytes name bytes => stateAfter (Registry.registerBytes name bytes r)

/-- Whether a registry becomes another one by operations. -/
inductive Reaches (r : Registry) : Registry → Prop
  | refl : Reaches r r
  | step {r' : Registry} (o : Operation) : Reaches r r' → Reaches r (o.apply r')

def Reachable (r : Registry) : Prop :=
  Reaches .initial r

theorem Sound.apply (hsound : r.Sound) (o : Operation) : (o.apply r).Sound := by
  cases o with
  | load name =>
      exact (grown_load hsound name).sound
  | define spec => exact sound_define hsound
  | defineClassFile bytes =>
      change (stateAfter (defineClassFile bytes r)).Sound
      unfold defineClassFile
      cases specOfClassFile bytes with
      | ok spec => exact sound_define hsound
      | error error => exact hsound
  | registerBytes name bytes =>
      change (stateAfter (registerBytes name bytes r)).Sound
      unfold registerBytes
      rw [bind_of_ok (get_apply r)]
      split
      next hname =>
        obtain ⟨t, ht⟩ := exists_get?_of_contains hname
        exact hsound.setBytes bytes ht
      next => exact hsound

theorem Reaches.sound (hreaches : r.Reaches r') (hsound : r.Sound) : r'.Sound := by
  induction hreaches with
  | refl => exact hsound
  | step o _ ih => exact ih.apply o

theorem Reachable.sound (hreachable : r.Reachable) : r.Sound :=
  Reaches.sound hreachable sound_initial

theorem Reachable.load {name : String} (hreachable : r.Reachable)
    (hload : load name r = .ok t r') : r'.Reachable := by
  have hstep := hreachable.step (.load name)
  change (stateAfter (Registry.load name r)).Reachable at hstep
  rwa [hload] at hstep

theorem Reachable.define {spec : ClassSpec} (hreachable : r.Reachable)
    (hdefine : define spec r = .ok t r') : r'.Reachable := by
  have hstep := hreachable.step (.define spec)
  change (stateAfter (Registry.define spec r)).Reachable at hstep
  rwa [hdefine] at hstep

theorem Reachable.defineClassFile {bytes : Array UInt8} (hreachable : r.Reachable)
    (hdefine : defineClassFile bytes r = .ok t r') : r'.Reachable := by
  have hstep := hreachable.step (.defineClassFile bytes)
  change (stateAfter (Registry.defineClassFile bytes r)).Reachable at hstep
  rwa [hdefine] at hstep

/-! ## Definitions stay -/

theorem definition?_define {spec : ClassSpec} {d : Definition} (hsound : r.Sound)
    (hd : r.definition? t = some d) :
    (stateAfter (define spec r)).definition? t = some d := by
  cases hdefine : define spec r with
  | error error r' => exact (define_eq_error hsound hdefine).1.definition? hd
  | ok u r' =>
      obtain ⟨-, ancestor, declared, r₁, hext, -, -, -, -, rfl⟩ :=
        define_eq_ok hsound hdefine
      have hinsert := definition?_insert_of_some
        (e := classDefinition spec ancestor declared r₁.nextId) (hext.definition? hd)
      cases hbytes : spec.classBytes with
      | none => exact hinsert
      | some bytes => exact hinsert

theorem Operation.definition?_apply {d : Definition} (hsound : r.Sound) (o : Operation)
    (hd : r.definition? t = some d) : (o.apply r).definition? t = some d := by
  cases o with
  | load name =>
      have hgrown := grown_load hsound name
      change (stateAfter (Registry.load name r)).definition? t = some d
      exact hgrown.extends_.definition? hd
  | define spec => exact definition?_define hsound hd
  | defineClassFile bytes =>
      change (stateAfter (Registry.defineClassFile bytes r)).definition? t = some d
      unfold Registry.defineClassFile
      cases specOfClassFile bytes with
      | ok spec => exact definition?_define hsound hd
      | error error => exact hd
  | registerBytes name bytes =>
      change (stateAfter (Registry.registerBytes name bytes r)).definition? t = some d
      unfold Registry.registerBytes
      rw [bind_of_ok (get_apply r)]
      split <;> exact hd

/-- What has been defined once stays as it is. -/
theorem Reaches.definition? {d : Definition} (hreaches : r.Reaches r') (hsound : r.Sound)
    (hd : r.definition? t = some d) : r'.definition? t = some d := by
  induction hreaches with
  | refl => exact hd
  | step o hbefore ih => exact Operation.definition?_apply (hbefore.sound hsound) o ih

/-- What has a definition once has one for good. -/
theorem Reaches.isSome_get? {name : String} (hreaches : r.Reaches r') (hsound : r.Sound)
    (hname : (r.get? name).isSome) : (r'.get? name).isSome := by
  obtain ⟨t, ht⟩ := Option.isSome_iff_exists.mp hname
  obtain ⟨d, hd, hdname⟩ := hsound.current ht
  obtain ⟨u, hu⟩ := (hreaches.sound hsound).named (hreaches.definition? hsound hd)
  rw [hdname] at hu
  exact Option.isSome_of_eq_some hu

theorem Reachable.isSome_builtin {d : Definition} (hreachable : r.Reachable)
    (hd : d ∈ builtin) : (r.get? d.name).isSome :=
  Reaches.isSome_get? hreachable sound_initial (isSome_get?_initial.mpr ⟨d, hd, rfl⟩)

end Forwarding.Registry
