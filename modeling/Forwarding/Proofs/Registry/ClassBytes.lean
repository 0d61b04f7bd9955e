import Forwarding.Proofs.Registry.ClassFile

/-!
# Whose bytes are found

Bytes are attached to a definition when it is made or while it is the current one of
its name.  They are found by name, though, so what is found for any definition of a
name are the bytes that were attached last to the current one.
-/

namespace Forwarding.Registry

variable {r r' : Registry} {t u : TypeId} {name : String} {bytes : Array UInt8}

/-! ## Names, identities and bytes -/

theorem bytesOf_foldl_insert {definitions : List Definition}
    (hnone : ∀ name bytes, r.bytesOf name ≠ .ok bytes) (name : String) (bytes : Array UInt8) :
    (definitions.foldl Registry.insert r).bytesOf name ≠ .ok bytes := by
  induction definitions generalizing r with
  | nil => exact hnone name bytes
  | cons d rest ih =>
      apply ih
      intro other bytes'
      rw [bytesOf_insert]
      by_cases hname : d.name = other
      · simp [hname]
      · rw [if_neg hname]
        exact hnone other bytes'

theorem bytesOf_initial (name : String) :
    initial.bytesOf name = .error (.typeLoad (.noClassBytes name)) := by
  have hnone : ∀ bytes, initial.bytesOf name ≠ .ok bytes := by
    apply bytesOf_foldl_insert
    simp [bytesOf]
  cases hbytes : initial.bytesOf name with
  | ok bytes => exact absurd hbytes (hnone bytes)
  | error error =>
      unfold bytesOf at hbytes
      split at hbytes
      next => cases hbytes
      next =>
        cases hbytes
        rfl

/-- A name that is current in a larger registry only means a type that is new. -/
theorem not_knows_of_get? (hsound : r.Sound) (hsound' : r'.Sound) (hext : r.Extends r')
    (hnone : r.get? name = none) (ht : r'.get? name = some t) : ¬r.Knows t := by
  intro hknown
  obtain ⟨d, hd⟩ := knows_iff.mp hknown
  obtain ⟨u, hu⟩ := hsound.named hd
  have hname := hsound'.nameOf_of_get? ht
  rw [Registry.nameOf_eq (hext.definition? hd)] at hname
  rw [hname, hnone] at hu
  cases hu

theorem nameOf_setBytes (r : Registry) (name : String) (bytes : Array UInt8) (t : TypeId) :
    (r.setBytes name bytes).nameOf t = r.nameOf t := rfl

theorem get?_setBytes (r : Registry) (name other : String) (bytes : Array UInt8) :
    (r.setBytes name bytes).get? other = r.get? other := rfl

theorem nextId_insert (r : Registry) (d : Definition) :
    (r.insert d).nextId = ⟨r.nextId.index + 1⟩ := by
  simp [insert, nextId]

theorem nextId_foldl_insert (r : Registry) (definitions : List Definition) :
    (definitions.foldl Registry.insert r).nextId = ⟨r.nextId.index + definitions.length⟩ := by
  induction definitions generalizing r with
  | nil => rfl
  | cons d rest ih =>
      rw [List.foldl_cons, ih, nextId_insert, List.length_cons, Nat.add_assoc, Nat.add_comm 1]

theorem nextId_initial : initial.nextId = ⟨10⟩ := by
  rw [initial, nextId_foldl_insert]
  rfl

/-! ## What was attached -/

def attachmentOf (bytes : Option (Array UInt8)) :
    EStateM.Result Error Registry TypeId → Option (TypeId × Array UInt8)
  | .ok t _ => bytes.map fun bytes => (t, bytes)
  | .error _ _ => none

/-- The type that an operation attaches bytes to, and the bytes. -/
def Operation.attachment? (r : Registry) : Operation → Option (TypeId × Array UInt8)
  | .load _ => none
  | .define spec => attachmentOf spec.classBytes (Registry.define spec r)
  | .defineClassFile bytes => attachmentOf (some bytes) (Registry.defineClassFile bytes r)
  | .registerBytes name bytes => (r.get? name).map fun t => (t, bytes)

/-- A registry and what was attached to its types, the latest first. -/
structure Ledger where
  registry : Registry
  attached : List (TypeId × Array UInt8)

namespace Ledger

def record (l : Ledger) (o : Operation) : Ledger :=
  ⟨o.apply l.registry, (o.attachment? l.registry).toList ++ l.attached⟩

def after (operations : List Operation) : Ledger :=
  operations.foldl record ⟨.initial, []⟩

def latest? (l : Ledger) (t : TypeId) : Option (Array UInt8) :=
  (l.attached.find? (·.1 = t)).map Prod.snd

/-- Whether the bytes of a name are those that were attached last to the current
definition of the name. -/
structure Faithful (l : Ledger) : Prop where
  sound : l.registry.Sound
  known : ∀ entry ∈ l.attached, l.registry.Knows entry.1
  bytes : ∀ name bytes, l.registry.bytesOf name = .ok bytes ↔
    ∃ t, l.registry.get? name = some t ∧ l.latest? t = some bytes

variable {l : Ledger}

theorem latest?_cons (entry : TypeId × Array UInt8) (t : TypeId) :
    latest? ⟨r, entry :: l.attached⟩ t = if entry.1 = t then some entry.2 else l.latest? t := by
  unfold latest?
  rw [List.find?_cons]
  by_cases hentry : entry.1 = t <;> simp [hentry]

theorem Faithful.latest?_of_not_knows (hl : l.Faithful) (hunknown : ¬l.registry.Knows t) :
    l.latest? t = none := by
  unfold latest?
  rw [Option.map_eq_none_iff, List.find?_eq_none]
  intro entry hentry hsame
  have hknown := hl.known entry hentry
  rw [of_decide_eq_true hsame] at hknown
  exact hunknown hknown

theorem faithful_initial : Faithful ⟨.initial, []⟩ where
  sound := sound_initial
  known := by simp
  bytes name bytes := by simp [bytesOf_initial, latest?]

/-! ## One operation -/

theorem Faithful.extends_ (hl : l.Faithful) (hext : l.registry.Extends r')
    (hsound : r'.Sound) : Faithful ⟨r', l.attached⟩ where
  sound := hsound
  known entry hentry := hext.knows (hl.known entry hentry)
  bytes name bytes := by
    change r'.bytesOf name = _ ↔ ∃ t, r'.get? name = some t ∧ l.latest? t = some bytes
    rw [hext.bytesOf, hl.bytes]
    constructor
    · rintro ⟨t, ht, hlatest⟩
      exact ⟨t, hext.get? ht, hlatest⟩
    · rintro ⟨t, ht, hlatest⟩
      cases hname : l.registry.get? name with
      | none =>
          have hunknown := not_knows_of_get? hl.sound hsound hext hname ht
          rw [hl.latest?_of_not_knows hunknown] at hlatest
          cases hlatest
      | some u =>
          have hu := hext.get? hname
          rw [ht, Option.some.injEq] at hu
          subst hu
          exact ⟨t, rfl, hlatest⟩

/-- A new definition has no bytes, and its name loses those that it had. -/
theorem Faithful.insert (hl : l.Faithful) {d : Definition}
    (hsound : (l.registry.insert d).Sound) : Faithful ⟨l.registry.insert d, l.attached⟩ where
  sound := hsound
  known entry hentry := knows_insert.mpr (.inl (hl.known entry hentry))
  bytes name bytes := by
    change (l.registry.insert d).bytesOf name = _ ↔
      ∃ t, (l.registry.insert d).get? name = some t ∧ l.latest? t = some bytes
    rw [bytesOf_insert, get?_insert]
    by_cases hname : d.name = name
    · have hnone := hl.latest?_of_not_knows not_knows_nextId
      simp [hname, hnone]
    · simpa [hname] using hl.bytes name bytes

theorem Faithful.setBytes (hl : l.Faithful) (ht : l.registry.get? name = some t)
    (bytes : Array UInt8) :
    Faithful ⟨l.registry.setBytes name bytes, (t, bytes) :: l.attached⟩ where
  sound := hl.sound.setBytes bytes ht
  known := by
    rw [List.forall_mem_cons]
    exact ⟨hl.sound.knows_of_get? ht, hl.known⟩
  bytes other bytes' := by
    change (l.registry.setBytes name bytes).bytesOf other = _ ↔
      ∃ u, l.registry.get? other = some u ∧ _ = some bytes'
    simp only [latest?_cons]
    rw [bytesOf_setBytes]
    by_cases hname : name = other
    · subst hname
      simp [ht]
    · rw [if_neg hname, hl.bytes]
      have hne : ∀ u, l.registry.get? other = some u → t ≠ u := by
        rintro u hu rfl
        have hother := hl.sound.nameOf_of_get? hu
        rw [hl.sound.nameOf_of_get? ht] at hother
        exact hname hother
      constructor
      · rintro ⟨u, hu, hlatest⟩
        exact ⟨u, hu, by rw [if_neg (hne u hu)]; exact hlatest⟩
      · rintro ⟨u, hu, hlatest⟩
        rw [if_neg (hne u hu)] at hlatest
        exact ⟨u, hu, hlatest⟩

theorem Faithful.define_ok (hl : l.Faithful) {spec : ClassSpec}
    (hdefine : define spec l.registry = .ok t r') :
    Faithful ⟨r', (spec.classBytes.map fun bytes => (t, bytes)).toList ++ l.attached⟩ := by
  obtain ⟨hname, ancestor, declared, r₁, hext, hsound, hancestor, hdeclared, rfl, rfl⟩ :=
    define_eq_ok hl.sound hdefine
  have hadmits :=
    admits_classDefinition hsound.toCoherent hname hancestor hdeclared
  have hinserted := (hl.extends_ hext hsound).insert (hsound.insert hadmits)
  cases spec.classBytes with
  | none => exact hinserted
  | some bytes =>
      have hcurrent : (r₁.insert (classDefinition spec ancestor declared r₁.nextId)).get?
          spec.name = some r₁.nextId := (get?_insert ..).trans (if_pos rfl)
      exact hinserted.setBytes hcurrent bytes

theorem Faithful.define_error (hl : l.Faithful) {spec : ClassSpec} {error : Error}
    (hdefine : define spec l.registry = .error error r') : Faithful ⟨r', l.attached⟩ := by
  obtain ⟨hext, hsound⟩ := define_eq_error hl.sound hdefine
  exact hl.extends_ hext hsound

theorem Faithful.define (hl : l.Faithful) (spec : ClassSpec) :
    Faithful ⟨stateAfter (define spec l.registry),
      (attachmentOf spec.classBytes (define spec l.registry)).toList ++ l.attached⟩ := by
  cases hdefine : Registry.define spec l.registry with
  | ok t r' => exact hl.define_ok hdefine
  | error error r' => exact hl.define_error hdefine

theorem Faithful.registerBytes (hl : l.Faithful) (name : String) (bytes : Array UInt8) :
    Faithful ⟨stateAfter (registerBytes name bytes l.registry),
      ((l.registry.get? name).map fun t => (t, bytes)).toList ++ l.attached⟩ := by
  have hcontains : l.registry.contains name = (l.registry.get? name).isSome :=
    Std.HashMap.contains_eq_isSome_getElem?
  unfold Registry.registerBytes
  rw [bind_of_ok (get_apply l.registry), hcontains]
  cases hname : l.registry.get? name with
  | none => exact hl
  | some t => exact hl.setBytes hname bytes

theorem Faithful.record (hl : l.Faithful) (o : Operation) : (l.record o).Faithful := by
  cases o with
  | load name =>
      have hgrown := grown_load hl.sound name
      exact hl.extends_ hgrown.extends_ hgrown.sound
  | define spec => exact hl.define spec
  | defineClassFile bytes =>
      change Faithful ⟨stateAfter (Registry.defineClassFile bytes l.registry),
        (attachmentOf (some bytes) (Registry.defineClassFile bytes l.registry)).toList ++
          l.attached⟩
      unfold Registry.defineClassFile
      cases hspec : specOfClassFile bytes with
      | error error => exact hl
      | ok spec =>
          rw [← (specOfClassFile_eq_ok hspec).1]
          exact hl.define spec
  | registerBytes name bytes => exact hl.registerBytes name bytes

/-! ## Every run -/

theorem faithful_after (operations : List Operation) : (after operations).Faithful := by
  have hrun : ∀ l : Ledger, l.Faithful → (operations.foldl Ledger.record l).Faithful := by
    induction operations with
    | nil => exact fun l hl => hl
    | cons o rest ih => exact fun l hl => ih (l.record o) (hl.record o)
  exact hrun _ faithful_initial

theorem mem_attached_of_latest? (hlatest : l.latest? t = some bytes) :
    (t, bytes) ∈ l.attached := by
  unfold latest? at hlatest
  obtain ⟨entry, hfind, rfl⟩ := Option.map_eq_some_iff.mp hlatest
  have htype : entry.1 = t := by simpa using List.find?_some hfind
  rw [← htype]
  exact List.mem_of_find?_eq_some hfind

/-- The bytes that are found for a type of any age are those that were attached last to
the current definition of its name.  So a type that is current has its own. -/
theorem bytes_of_current (operations : List Operation) (t : TypeId) (bytes : Array UInt8) :
    ((after operations).registry.bytesOf ((after operations).registry.nameOf t) = .ok bytes ↔
      ∃ u, (after operations).registry.get? ((after operations).registry.nameOf t) = some u ∧
        (after operations).latest? u = some bytes) ∧
    ((after operations).registry.get? ((after operations).registry.nameOf t) = some t →
      (after operations).registry.bytesOf ((after operations).registry.nameOf t) = .ok bytes →
      (t, bytes) ∈ (after operations).attached) := by
  have hlatest := (faithful_after operations).bytes ((after operations).registry.nameOf t) bytes
  refine ⟨hlatest, ?_⟩
  intro hcurrent hbytes
  obtain ⟨u, hu, hlast⟩ := hlatest.mp hbytes
  rw [hcurrent, Option.some.injEq] at hu
  subst hu
  exact mem_attached_of_latest? hlast

/-! ## A class that is defined again -/

def plainClass (name : String) (bytes : Option (Array UInt8)) : ClassSpec :=
  ⟨name, false, none, [], [], bytes⟩

theorem define_plainClass (r : Registry) (hname : definable name = true)
    (bytes : Option (Array UInt8)) :
    define (plainClass name bytes) r = .ok r.nextId
      ((r.insert (classDefinition (plainClass name bytes) r.root [] r.nextId)).attachBytes
        name bytes) := by
  unfold define
  rw [if_neg (by simp [plainClass, hname])]
  rfl

/-- A class without bytes, and one of the same name with bytes. -/
def redefinition : List Operation :=
  [.define (plainClass "a.B" none), .define (plainClass "a.B" (some #[0xCA, 0xFE]))]

theorem after_redefinition :
    ∃ r, after redefinition = ⟨r, [(⟨11⟩, #[0xCA, 0xFE])]⟩ ∧ r.nameOf ⟨10⟩ = "a.B" ∧
      r.nameOf ⟨11⟩ = "a.B" ∧ r.get? "a.B" = some ⟨11⟩ ∧
      r.bytesOf "a.B" = .ok #[0xCA, 0xFE] := by
  have hname : definable "a.B" = true := by decide +kernel
  let older := classDefinition (plainClass "a.B" none) initial.root [] ⟨10⟩
  let newer := classDefinition (plainClass "a.B" (some #[0xCA, 0xFE])) initial.root [] ⟨11⟩
  have hnext : (initial.insert older).nextId = ⟨11⟩ := by
    rw [nextId_insert, nextId_initial]
  have hfirst : define (plainClass "a.B" none) initial = .ok ⟨10⟩ (initial.insert older) := by
    rw [define_plainClass initial hname, nextId_initial]
    rfl
  have hsecond : define (plainClass "a.B" (some #[0xCA, 0xFE])) (initial.insert older) =
      .ok ⟨11⟩ (((initial.insert older).insert newer).setBytes "a.B" #[0xCA, 0xFE]) := by
    rw [define_plainClass (initial.insert older) hname, hnext, root_insert]
    rfl
  have holder : (initial.insert older).definition? ⟨10⟩ = some older := by
    rw [definition?_insert, nextId_initial, if_pos rfl]
  have hnewer : ((initial.insert older).insert newer).definition? ⟨11⟩ = some newer := by
    rw [definition?_insert, hnext, if_pos rfl]
  have hcurrent : ((initial.insert older).insert newer).get? "a.B" = some ⟨11⟩ := by
    rw [get?_insert, hnext]
    exact if_pos rfl
  refine ⟨((initial.insert older).insert newer).setBytes "a.B" #[0xCA, 0xFE], ?_, ?_, ?_, ?_, ?_⟩
  · simp only [after, redefinition, List.foldl_cons, List.foldl_nil, Ledger.record,
      Operation.apply, Operation.attachment?, attachmentOf, hfirst, hsecond, stateAfter]
    rfl
  · rw [nameOf_setBytes, Registry.nameOf_eq (definition?_insert_of_some holder)]
    rfl
  · rw [nameOf_setBytes, Registry.nameOf_eq hnewer]
    rfl
  · rw [get?_setBytes, hcurrent]
  · rw [bytesOf_setBytes, if_pos rfl]

theorem redefinition_bytes :
    ((after redefinition).registry.get? ((after redefinition).registry.nameOf ⟨11⟩) = some ⟨11⟩ ∧
      (after redefinition).registry.bytesOf ((after redefinition).registry.nameOf ⟨11⟩) =
        .ok #[0xCA, 0xFE]) ∧
      (⟨11⟩, #[0xCA, 0xFE]) ∈ (after redefinition).attached := by
  obtain ⟨r, hafter, -, hname, hcurrent, hbytes⟩ := after_redefinition
  have hown := (bytes_of_current redefinition ⟨11⟩ #[0xCA, 0xFE]).2
  rw [hafter] at hown ⊢
  simp only [hname] at hown ⊢
  exact ⟨⟨hcurrent, hbytes⟩, hown hcurrent hbytes⟩

/-- So bytes may be found for a type that they were not attached to: an older
definition of a name that has been defined again. -/
theorem not_own_bytes :
    ¬∀ (operations : List Operation) (t : TypeId) (bytes : Array UInt8),
      (after operations).registry.Knows t →
      (after operations).registry.bytesOf ((after operations).registry.nameOf t) = .ok bytes →
      (t, bytes) ∈ (after operations).attached := by
  intro hlaw
  obtain ⟨r, hafter, hname, -, -, hbytes⟩ := after_redefinition
  have hknown : (after redefinition).registry.Knows ⟨10⟩ := by
    rw [hafter]
    by_cases hknown : r.Knows ⟨10⟩
    · exact hknown
    · rw [nameOf_of_not_knows hknown] at hname
      simp at hname
  have hown := hlaw redefinition ⟨10⟩ #[0xCA, 0xFE] hknown
  rw [hafter] at hown
  simp [hname, hbytes] at hown

end Ledger

end Forwarding.Registry
