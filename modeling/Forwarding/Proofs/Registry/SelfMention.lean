import Forwarding.Proofs.Descriptor.RoundTrip
import Forwarding.Proofs.Registry.Components

/-!
# Classes that mention themselves

A class file may mention its own class in its descriptors.  Where the class is
mentioned by itself, the new definition is meant.  An array over the class,
though, is looked up before the definition is made: there has to be an older
definition, and that is what the array is over.
-/

namespace Forwarding

open Forwarding.ClassFile Forwarding.TypeName

/-! ## Elements -/

theorem isBare_typeName {e : ElementType} (hvalid : e.Valid) : IsBare e.typeName := by
  cases e with
  | base b => cases b <;> decide +kernel
  | object name =>
      apply isBare_of_not_mem
      intro hopen
      exact hvalid.2 '[' hopen (by simp)

namespace Registry

variable {r r' : Registry} {t : TypeId} {own name : String} {τ : FieldType}
  {bytes : Array UInt8} {attached : Option (Array UInt8)}

theorem ne_voidName_of_definable (hown : definable own = true) : own ≠ voidName := by
  intro heq
  have hvoid : definable voidName = false := by decide +kernel
  rw [heq, hvoid] at hown
  cases hown

/-! ## Class files that can be read -/

/-- What is read from a class file if it can be read to its end. -/
structure ReadClass (bytes : Array UInt8) where
  file : ClassFile
  name : String
  parent : Option String
  table : MethodTable
  descriptors : List MethodDescriptor
  parsed : ClassFile.parse bytes = .ok file
  named : file.className = .ok name
  extended : file.superName = .ok parent
  listed : file.methods = .ok table
  complete : table.failure = none
  described : List.Forall₂ (fun m descriptor => Descriptor.parseMethod m.descriptor = .ok descriptor)
    (usable table) descriptors

namespace ReadClass

def ownName (c : ReadClass bytes) : String :=
  dotted c.name

/-- The types that the descriptors mention. -/
def types (c : ReadClass bytes) : List FieldType :=
  c.descriptors.flatMap fun m => m.parameters ++ m.result.toList

end ReadClass

/-- Whether a specification of a method has the types of a descriptor. -/
structure Specifies (m : MethodDescriptor) (spec : MethodSpec) : Prop where
  parameters : spec.parameters = m.parameterTypeNames
  result : spec.result = ReturnType.typeName m.result

theorem ofDescriptor_of_parseMethod {descriptor : String} {m : MethodDescriptor}
    {flags : MethodFlags} {annotations : List Annotation}
    (hm : Descriptor.parseMethod descriptor = .ok m) :
    MethodSpec.ofDescriptor name descriptor flags annotations =
      .ok ⟨name, m.parameterTypeNames, ReturnType.typeName m.result, flags, annotations⟩ := by
  unfold MethodSpec.ofDescriptor
  rw [hm]
  rfl

theorem specsOfEntries_of_described {entries : List MethodEntry}
    {descriptors : List MethodDescriptor}
    (hdescribed : List.Forall₂
      (fun m descriptor => Descriptor.parseMethod m.descriptor = .ok descriptor)
      (entries.filter fun m => !isInitializer m.name) descriptors) :
    ∃ specs, specsOfEntries none entries = .ok specs ∧
      List.Forall₂ Specifies descriptors specs := by
  induction entries generalizing descriptors with
  | nil =>
      cases hdescribed
      exact ⟨[], rfl, .nil⟩
  | cons m rest ih =>
      unfold specsOfEntries
      by_cases hinitializer : isInitializer m.name = true
      · rw [List.filter_cons_of_neg (by simp [hinitializer])] at hdescribed
        rw [if_pos hinitializer]
        exact ih hdescribed
      · rw [List.filter_cons_of_pos (by simp [hinitializer])] at hdescribed
        rw [if_neg hinitializer]
        cases hdescribed with
        | cons hfirst hothers =>
            obtain ⟨others, hrest, hall⟩ := ih hothers
            refine ⟨⟨m.name, _, _, m.flags, []⟩ :: others, ?_, .cons ⟨rfl, rfl⟩ hall⟩
            refine except_bind_eq_ok.mpr ⟨_, ofDescriptor_of_parseMethod hfirst, ?_⟩
            exact except_bind_eq_ok.mpr ⟨others, hrest, rfl⟩

theorem ReadClass.exists_spec (c : ReadClass bytes) :
    ∃ spec, specOfClassFile bytes = .ok spec ∧ spec.name = c.ownName ∧
      spec.parent = c.parent.map dotted ∧ List.Forall₂ Specifies c.descriptors spec.methods := by
  obtain ⟨methods, hmethods, hall⟩ := specsOfEntries_of_described c.described
  rw [← c.complete] at hmethods
  refine ⟨⟨c.ownName, c.file.isInterface, c.parent.map dotted, methods, [], some bytes⟩, ?_, rfl, rfl,
    hall⟩
  refine except_bind_eq_ok.mpr ⟨c.file, c.parsed, ?_⟩
  refine except_bind_eq_ok.mpr ⟨c.name, c.named, ?_⟩
  refine except_bind_eq_ok.mpr ⟨c.parent, c.extended, ?_⟩
  refine except_bind_eq_ok.mpr ⟨c.table, c.listed, ?_⟩
  exact except_bind_eq_ok.mpr ⟨methods, hmethods, rfl⟩

theorem defineClassFile_of_spec {spec : ClassSpec} (hspec : specOfClassFile bytes = .ok spec) :
    defineClassFile bytes r = define spec r := by
  unfold defineClassFile
  rw [hspec]

theorem Specifies.forall_names_iff {P : String → Prop} {m : MethodDescriptor}
    {spec : MethodSpec} (hspecifies : Specifies m spec) :
    (∀ name ∈ spec.result :: spec.parameters, P name) ↔
      P (ReturnType.typeName m.result) ∧ ∀ τ ∈ m.parameters, P τ.typeName := by
  rw [hspecifies.result, hspecifies.parameters, MethodDescriptor.parameterTypeNames]
  simp

/-- What a method of a class file mentions are the types of its descriptor and
perhaps `void`. -/
theorem forall_names_iff {P : String → Prop} {descriptors : List MethodDescriptor}
    {specs : List MethodSpec} (hvoid : P voidName)
    (hspecifies : List.Forall₂ Specifies descriptors specs) :
    (∀ spec ∈ specs, ∀ name ∈ spec.result :: spec.parameters, P name) ↔
      ∀ τ ∈ descriptors.flatMap fun m => m.parameters ++ m.result.toList, P τ.typeName := by
  induction hspecifies with
  | nil => simp
  | @cons m spec _ _ hhead _ ih =>
      rw [List.forall_mem_cons, ih, hhead.forall_names_iff, List.flatMap_cons,
        List.forall_mem_append, List.forall_mem_append]
      cases m.result with
      | none => simp [ReturnType.typeName, hvoid]
      | some τ => simp [ReturnType.typeName, and_comm]

/-! ## When a class file defines its class -/

/-- Whether the class that a type is over exists or is the one being defined.  There
are no arrays of `void`, even if it is written as a class. -/
def Resolvable (own : String) (r : Registry) (τ : FieldType) : Prop :=
  ∀ name, τ.element = .object name →
    name = own ∨ (r.get? name).isSome ∧ (name = voidName → τ.dimensions = 0)

theorem loadable_of_resolvable (hreachable : r.Reachable) (hvalid : τ.Valid)
    (hresolvable : Resolvable own r τ) (hother : τ.element ≠ .object own) :
    r.Loadable τ.typeName := by
  have hbare := isBare_typeName hvalid.element
  cases helement : τ.element with
  | base b =>
      rw [helement] at hbare
      have hb : Definition.leaf b.name (.primitive b) ∈ builtin :=
        List.mem_append_left _ (List.mem_map_of_mem b.mem_all)
      have hvoid : b.name ≠ voidName := by cases b <;> decide
      rw [FieldType.typeName, helement]
      exact loadable_of_element hbare (hreachable.isSome_builtin hb) (Or.inl hvoid)
  | object name =>
      rw [helement] at hbare
      cases hresolvable name helement with
      | inl hown =>
          rw [hown] at helement
          exact absurd helement hother
      | inr hname =>
          rw [FieldType.typeName, helement]
          apply loadable_of_element hbare hname.1
          by_cases hvoid : name = voidName
          · exact Or.inr (hname.2 hvoid)
          · exact Or.inl hvoid

/-- A type over the class being defined is found if it is no array or there is an
older definition of the class. -/
theorem findable_over_own_iff (hreachable : r.Reachable) (hown : definable own = true)
    (helement : τ.element = .object own) :
    Findable own r τ.typeName ↔ τ.dimensions = 0 ∨ (r.get? own).isSome := by
  have hbare := isBare_of_definable hown
  have hname : τ.typeName = own ++ arraySuffix τ.dimensions := by
    rw [FieldType.typeName, helement]
    rfl
  rw [hname]
  cases hdimensions : τ.dimensions with
  | zero => simp [Findable]
  | succ n =>
      have hne : own ++ arraySuffix (n + 1) ≠ own := by
        rw [Ne, append_arraySuffix_eq_self_iff]
        exact Nat.succ_ne_zero n
      simp only [Findable, hne, false_or, Nat.add_eq_zero_iff, Nat.one_ne_zero, and_false]
      constructor
      · exact hreachable.layered.isSome_of_loadable hreachable.sound hbare
      · intro hcurrent
        exact loadable_of_element hbare hcurrent (Or.inl (ne_voidName_of_definable hown))

theorem ReadClass.valid (c : ReadClass bytes) (hτ : τ ∈ c.types) : τ.Valid := by
  obtain ⟨m, hm, hmentions⟩ := List.mem_flatMap.mp hτ
  obtain ⟨entry, hentry⟩ := exists_of_forall₂ c.described hm
  have hvalid := (Descriptor.parseMethod_eq_ok_iff.mp hentry).1
  cases List.mem_append.mp hmentions with
  | inl hparameter => exact hvalid.parameters τ hparameter
  | inr hresult => exact hvalid.result τ (Option.mem_toList.mp hresult)

theorem ReadClass.exists_define_iff (c : ReadClass bytes) (hreachable : r.Reachable)
    (hown : definable c.ownName = true)
    (hparent : ∀ parent ∈ c.parent, r.Loadable (dotted parent))
    (hresolvable : ∀ τ ∈ c.types, Resolvable c.ownName r τ) :
    (∃ t r', defineClassFile bytes r = .ok t r') ↔
      (r.get? c.ownName).isSome ∨
        ∀ τ ∈ c.types, τ.element = .object c.ownName → τ.dimensions = 0 := by
  obtain ⟨spec, hspec, hname, hextends, hspecifies⟩ := c.exists_spec
  have hvoidLeaf : Definition.leaf voidName .void ∈ builtin := by
    apply List.mem_append_right
    exact List.mem_cons_self
  have hvoid : Findable c.ownName r voidName :=
    Or.inr (loadable_of_isSome (hreachable.isSome_builtin hvoidLeaf))
  have hnames := forall_names_iff (P := Findable c.ownName r) hvoid hspecifies
  rw [defineClassFile_of_spec hspec]
  constructor
  · intro hdefined
    obtain ⟨t, r', hdefine⟩ := hdefined
    by_cases hcurrent : (r.get? c.ownName).isSome
    · exact Or.inl hcurrent
    · refine Or.inr fun τ hτ helement => ?_
      have hfound : ∀ method ∈ spec.methods, ∀ name ∈ method.result :: method.parameters,
          Findable c.ownName r name := by
        intro method hmethod name hmem
        rw [← hname]
        exact findable_of_define hreachable.sound hdefine hmethod hmem
      have hτfound := hnames.mp hfound τ hτ
      have hover := (findable_over_own_iff hreachable hown helement).mp hτfound
      exact hover.resolve_right hcurrent
  · intro hover
    apply define_succeeds hreachable.sound (hname ▸ hown)
    · intro name hmem
      rw [hextends] at hmem
      obtain ⟨parent, hmem, hdotted⟩ := Option.map_eq_some_iff.mp hmem
      exact hdotted ▸ hparent parent hmem
    · rw [hname]
      apply hnames.mpr
      intro τ hτ
      by_cases helement : τ.element = .object c.ownName
      · apply (findable_over_own_iff hreachable hown helement).mpr
        exact hover.symm.imp_left fun hnone => hnone τ hτ helement
      · exact Or.inr (loadable_of_resolvable hreachable (c.valid hτ) (hresolvable τ hτ) helement)

/-! ## What is meant by a mention -/

/-- What a type of a descriptor has become in a declaration of a new type.  An array
over the class itself is over an older definition. -/
structure Means (own : String) (r : Registry) (t : TypeId) (τ : FieldType) (u : TypeId) :
    Prop where
  plain : τ.typeName = own → u = t
  other : τ.typeName ≠ own → r.get? τ.typeName = some u
  older : τ.element = .object own → τ.dimensions ≠ 0 →
    ∃ e, r.elementAt τ.dimensions u = some e ∧ r.nameOf e = own ∧ e.index < t.index

structure MethodMeans (own : String) (r : Registry) (t : TypeId) (m : MethodDescriptor)
    (declaration : Declaration TypeId) : Prop where
  parameters : List.Forall₂ (Means own r t) m.parameters declaration.shape.parameters
  result : ∀ τ ∈ m.result, Means own r t τ declaration.result
  void : m.result = none → r.get? voidName = some declaration.result

theorem Mention.Names.get?_of_define {d : Definition} {m : Mention} {attached}
    (hd : d.name = own) (hnames : Mention.Names own r name m) (hne : name ≠ own) :
    ((r.insert d).attachBytes own attached).get? name = some (m.resolve r.nextId) := by
  cases m with
  | self => exact absurd hnames hne
  | other u =>
      rw [get?_attachBytes, get?_insert, hd, if_neg hne.symm]
      exact hnames.2

theorem Mention.Names.means {d : Definition} {m : Mention} (hsound : r.Sound)
    (hlayered : ((r.insert d).attachBytes own attached).Layered)
    (hd : d.name = own) (hnames : Mention.Names own r τ.typeName m) :
    Means own ((r.insert d).attachBytes own attached) r.nextId τ (m.resolve r.nextId) where
  plain := by
    intro hown
    cases m with
    | self => rfl
    | other u => exact absurd hown hnames.1
  other := hnames.get?_of_define hd
  older := by
    intro helement hdimensions
    have hname : τ.typeName = own ++ arraySuffix τ.dimensions := by
      rw [FieldType.typeName, helement]
      rfl
    have hne : τ.typeName ≠ own := by
      rw [hname, Ne, append_arraySuffix_eq_self_iff]
      exact hdimensions
    have hcurrent : ((r.insert d).attachBytes own attached).get? τ.typeName =
        some (m.resolve r.nextId) := hnames.get?_of_define hd hne
    obtain ⟨array, harray, harrayName⟩ := hlayered.current hcurrent
    obtain ⟨e, he, hename, hle⟩ := hlayered.exists_elementAt harray (harrayName.trans hname)
    refine ⟨e, he, hename, Nat.lt_of_le_of_lt hle ?_⟩
    cases m with
    | self => exact absurd hnames hne
    | other u => exact hsound.knows_of_get? hnames.2

theorem Signature.Resolves.methodMeans {d : Definition} {m : MethodDescriptor}
    {spec : MethodSpec} {s : Signature} (hsound : r.Sound)
    (hlayered : ((r.insert d).attachBytes own attached).Layered) (hd : d.name = own)
    (hown : definable own = true) (hspecifies : Specifies m spec)
    (hresolves : Signature.Resolves own r spec s) :
    MethodMeans own ((r.insert d).attachBytes own attached) r.nextId m
      (s.declare r.nextId) where
  parameters := by
    have hparameters := hresolves.parameters
    rw [hspecifies.parameters, MethodDescriptor.parameterTypeNames,
      List.forall₂_map_left_iff] at hparameters
    change List.Forall₂ _ m.parameters (s.parameters.map (Mention.resolve r.nextId))
    rw [List.forall₂_map_right_iff]
    exact hparameters.imp fun _ _ hnames => hnames.means hsound hlayered hd
  result := by
    intro τ hτ
    have hresult := hresolves.result
    rw [hspecifies.result, Option.mem_def.mp hτ] at hresult
    exact Mention.Names.means hsound hlayered hd hresult
  void := by
    intro hnone
    have hresult := hresolves.result
    rw [hspecifies.result, hnone] at hresult
    exact hresult.get?_of_define hd (ne_voidName_of_definable hown).symm

theorem ReadClass.means_of_define (c : ReadClass bytes) (hreachable : r.Reachable)
    (hdefine : defineClassFile bytes r = .ok t r') :
    ∃ d, r'.definition? t = some d ∧
      List.Forall₂ (MethodMeans c.ownName r' t) c.descriptors d.methods := by
  obtain ⟨spec, hspec, hname, -, hspecifies⟩ := c.exists_spec
  rw [defineClassFile_of_spec hspec] at hdefine
  have hlayered := (hreachable.define hdefine).layered
  obtain ⟨hown, ancestor, declared, r₁, -, hsound₁, -, hdeclared, rfl, rfl⟩ :=
    define_eq_ok hreachable.sound hdefine
  rw [hname] at hown hdeclared hlayered
  refine ⟨_, definition?_nextId _ _, ?_⟩
  rw [hname]
  change List.Forall₂ _ c.descriptors (declared.map (Signature.declare r₁.nextId))
  rw [List.forall₂_map_right_iff]
  exact forall₂_trans hspecifies hdeclared fun _ _ _ hm hresolves =>
    hresolves.methodMeans hsound₁ hlayered hname hown hm

/-- A class file that mentions existing classes and its own defines its class if and
only if it mentions no array over its own class or this class has an older
definition.  What it mentions is then what it should be, except that an array over
its own class is over an older definition. -/
theorem self_mentions (c : ReadClass bytes) (hreachable : r.Reachable)
    (hown : definable c.ownName = true)
    (hparent : ∀ parent ∈ c.parent, r.Loadable (dotted parent))
    (hresolvable : ∀ τ ∈ c.types, Resolvable c.ownName r τ) :
    ((∃ t r', defineClassFile bytes r = .ok t r') ↔
      (r.get? c.ownName).isSome ∨
        ∀ τ ∈ c.types, τ.element = .object c.ownName → τ.dimensions = 0) ∧
    ∀ t r', defineClassFile bytes r = .ok t r' →
      ∃ d, r'.definition? t = some d ∧
        List.Forall₂ (MethodMeans c.ownName r' t) c.descriptors d.methods :=
  ⟨c.exists_define_iff hreachable hown hparent hresolvable,
    fun _ _ hdefine => c.means_of_define hreachable hdefine⟩

/-! ## A class with arrays of itself -/

/-- A class `E` with two methods: `values`, which gives an array of `E`, and `next`,
which gives an `E`. -/
def enumeration : Array UInt8 := #[
  0xCA, 0xFE, 0xBA, 0xBE, 0x00, 0x00, 0x00, 0x34, 0x00, 0x09, 0x01, 0x00,
  0x01, 0x45, 0x07, 0x00, 0x01, 0x01, 0x00, 0x10, 0x6A, 0x61, 0x76, 0x61,
  0x2F, 0x6C, 0x61, 0x6E, 0x67, 0x2F, 0x4F, 0x62, 0x6A, 0x65, 0x63, 0x74,
  0x07, 0x00, 0x03, 0x01, 0x00, 0x06, 0x76, 0x61, 0x6C, 0x75, 0x65, 0x73,
  0x01, 0x00, 0x06, 0x28, 0x29, 0x5B, 0x4C, 0x45, 0x3B, 0x01, 0x00, 0x04,
  0x6E, 0x65, 0x78, 0x74, 0x01, 0x00, 0x05, 0x28, 0x29, 0x4C, 0x45, 0x3B,
  0x00, 0x21, 0x00, 0x02, 0x00, 0x04, 0x00, 0x00, 0x00, 0x00, 0x00, 0x02,
  0x01, 0x09, 0x00, 0x05, 0x00, 0x06, 0x00, 0x00, 0x01, 0x01, 0x00, 0x07,
  0x00, 0x08, 0x00, 0x00, 0x00, 0x00]

def valuesDescriptor : MethodDescriptor :=
  ⟨[], some ⟨1, .object "E"⟩⟩

def nextDescriptor : MethodDescriptor :=
  ⟨[], some ⟨0, .object "E"⟩⟩

theorem enumeration_read :
    ∃ c : ReadClass enumeration, c.ownName = "E" ∧ c.parent = some "java/lang/Object" ∧
      c.descriptors = [valuesDescriptor, nextDescriptor] := by
  have hcomputed :
      ((ClassFile.parse enumeration).toOption.bind fun file =>
        file.className.toOption.bind fun name => file.superName.toOption.bind fun parent =>
          file.methods.toOption.map fun table =>
            (name, parent, table.failure.isNone,
              (usable table).map fun m => (Descriptor.parseMethod m.descriptor).toOption)) =
        some ("E", some "java/lang/Object", true,
          [valuesDescriptor, nextDescriptor].map some) := by
    decide +kernel
  obtain ⟨file, hfile, hcomputed⟩ := Option.bind_eq_some_iff.mp hcomputed
  obtain ⟨name, hname, hcomputed⟩ := Option.bind_eq_some_iff.mp hcomputed
  obtain ⟨parent, hparent, hcomputed⟩ := Option.bind_eq_some_iff.mp hcomputed
  obtain ⟨table, htable, hcomputed⟩ := Option.map_eq_some_iff.mp hcomputed
  simp only [Prod.mk.injEq] at hcomputed
  obtain ⟨hnamed, hextended, hcomplete, hdescribed⟩ := hcomputed
  rw [← List.forall₂_eq_eq_eq, List.forall₂_map_left_iff, List.forall₂_map_right_iff] at hdescribed
  rw [except_toOption_eq_some] at hfile hname hparent htable
  let c : ReadClass enumeration :=
    { file, name, parent, table
      descriptors := [valuesDescriptor, nextDescriptor]
      parsed := hfile
      named := hname
      extended := hparent
      listed := htable
      complete := Option.isNone_iff_eq_none.mp hcomplete
      described := hdescribed.imp fun _ _ hm => except_toOption_eq_some.mp hm }
  refine ⟨c, ?_, hextended, rfl⟩
  change dotted name = "E"
  rw [hnamed]
  decide +kernel

/-- All classes that it mentions exist in every registry, except for itself. -/
theorem exists_enumeration :
    ∃ c : ReadClass enumeration, c.ownName = "E" ∧
      c.descriptors = [valuesDescriptor, nextDescriptor] ∧ definable c.ownName = true ∧
      ∀ r : Registry, r.Reachable → (∀ parent ∈ c.parent, r.Loadable (dotted parent)) ∧
        ∀ τ ∈ c.types, Resolvable c.ownName r τ := by
  obtain ⟨c, hname, hparent, hdescriptors⟩ := enumeration_read
  refine ⟨c, hname, hdescriptors, ?_, fun r hreachable => ⟨?_, ?_⟩⟩
  · rw [hname]
    decide +kernel
  · have hroot : Definition.leaf rootTypeName .classType ∈ builtin := by
      apply List.mem_append_right
      simp
    have hdotted : dotted "java/lang/Object" = rootTypeName := by decide +kernel
    simp only [hparent, Option.mem_some_iff, forall_eq', hdotted]
    exact loadable_of_isSome (hreachable.isSome_builtin hroot)
  · intro τ hτ name helement
    left
    rw [ReadClass.types, hdescriptors] at hτ
    simp [valuesDescriptor, nextDescriptor] at hτ
    rw [hname]
    rcases hτ with rfl | rfl <;> cases helement <;> rfl

/-- If there is an older class `E`, the class file can be defined. -/
theorem enumeration_redefined :
    ∃ (r : Registry) (c : ReadClass enumeration),
      (r.Reachable ∧ definable c.ownName = true ∧
        (∀ parent ∈ c.parent, r.Loadable (dotted parent)) ∧
        ∀ τ ∈ c.types, Resolvable c.ownName r τ) ∧
      ∃ t r' d, defineClassFile enumeration r = .ok t r' ∧ r'.definition? t = some d ∧
        List.Forall₂ (MethodMeans "E" r' t) [valuesDescriptor, nextDescriptor] d.methods := by
  obtain ⟨c, hname, hdescriptors, hown, hmentions⟩ := exists_enumeration
  have hdefine := Ledger.define_plainClass initial (hname ▸ hown) none
  have hreachable := Reachable.define .refl hdefine
  have hcurrent := get?_of_define sound_initial hdefine
  obtain ⟨hparent, hresolvable⟩ := hmentions _ hreachable
  obtain ⟨hiff, hmeans⟩ := self_mentions c hreachable hown hparent hresolvable
  rw [hname] at hiff
  obtain ⟨t, r', hdefined⟩ := hiff.mpr (Or.inl (Option.isSome_of_eq_some hcurrent))
  obtain ⟨d, hd, hmethods⟩ := hmeans t r' hdefined
  rw [hname, hdescriptors] at hmethods
  exact ⟨_, c, ⟨hreachable, hown, hparent, hresolvable⟩, t, r', d, hdefined, hd, hmethods⟩

/-- So a class file that mentions existing classes and its own need not define its
class. -/
theorem not_always_defined :
    ¬∀ (r : Registry) (bytes : Array UInt8) (c : ReadClass bytes), r.Reachable →
      definable c.ownName = true → (∀ parent ∈ c.parent, r.Loadable (dotted parent)) →
      (∀ τ ∈ c.types, Resolvable c.ownName r τ) →
      ∃ t r', defineClassFile bytes r = .ok t r' := by
  intro hlaw
  obtain ⟨c, hname, hdescriptors, hown, hmentions⟩ := exists_enumeration
  obtain ⟨hparent, hresolvable⟩ := hmentions initial .refl
  have hdefined := hlaw initial enumeration c .refl hown hparent hresolvable
  have hiff := c.exists_define_iff .refl hown hparent hresolvable
  cases hiff.mp hdefined with
  | inl hcurrent =>
      rw [hname, isSome_get?_initial] at hcurrent
      revert hcurrent
      decide +kernel
  | inr hnone =>
      have hvalues : ⟨1, .object "E"⟩ ∈ c.types := by
        rw [ReadClass.types, hdescriptors]
        simp [valuesDescriptor]
      exact absurd (hnone _ hvalues (by rw [hname])) Nat.one_ne_zero

end Registry

end Forwarding
