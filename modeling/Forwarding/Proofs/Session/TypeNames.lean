import Forwarding.Proofs.Registry.Listing
import Forwarding.Proofs.Registry.SelfMention
import Forwarding.Proofs.Session.Growth

/-!
# What the names of types denote

Types are looked up by their source names.  The name of a base type is a keyword, and
class files may name a class by a keyword as well, so that the two have one name; other
types differ in their names.  A registry has no class of such a name: what is looked up
there is the base type, or `void`.
-/

namespace Forwarding

open Forwarding.TypeName

/-! ## Types with the same name -/

/-- A base type and the class that has its keyword as a name, in either order. -/
inductive ElementType.Homonyms : ElementType → ElementType → Prop
  | base (b : BaseType) : Homonyms (.base b) (.object b.name)
  | object (b : BaseType) : Homonyms (.object b.name) (.base b)

/-- Whether two types are equal, or arrays of as many dimensions over homonyms. -/
inductive FieldType.SharesName : FieldType → FieldType → Prop
  | same (a : FieldType) : SharesName a a
  | homonyms {e e' : ElementType} (dimensions : Nat) (helements : e.Homonyms e') :
      SharesName ⟨dimensions, e⟩ ⟨dimensions, e'⟩

theorem BaseType.name_inj {b b' : BaseType} : b.name = b'.name ↔ b = b' := by
  constructor
  · intro heq
    have hread := BaseType.ofName?_name b
    rw [heq, BaseType.ofName?_name, Option.some.injEq] at hread
    exact hread.symm
  · intro heq
    rw [heq]

theorem ElementType.typeName_eq_iff {e e' : ElementType} :
    e.typeName = e'.typeName ↔ e = e' ∨ e.Homonyms e' := by
  constructor
  · intro heq
    cases e with
    | base b =>
        cases e' with
        | base b' => exact Or.inl (congrArg ElementType.base (BaseType.name_inj.mp heq))
        | object name =>
            have hname : b.name = name := heq
            exact Or.inr (hname ▸ .base b)
    | object name =>
        cases e' with
        | base b' =>
            have hname : name = b'.name := heq
            exact Or.inr (hname ▸ .object b')
        | object name' => exact Or.inl (congrArg ElementType.object heq)
  · intro hsame
    rcases hsame with rfl | hhomonyms
    · rfl
    · cases hhomonyms <;> rfl

theorem FieldType.typeName_eq_iff {a b : FieldType} (ha : a.Valid) (hb : b.Valid) :
    a.typeName = b.typeName ↔ a.SharesName b := by
  unfold FieldType.typeName
  rw [append_arraySuffix_inj (isBare_typeName ha.element) (isBare_typeName hb.element),
    ElementType.typeName_eq_iff]
  obtain ⟨n, e⟩ := a
  obtain ⟨n', e'⟩ := b
  constructor
  · intro hsame
    obtain ⟨hdimensions, helements⟩ := hsame
    dsimp only at hdimensions helements
    subst hdimensions
    rcases helements with rfl | hhomonyms
    · exact .same _
    · exact .homonyms n hhomonyms
  · intro hshares
    cases hshares with
    | same => exact ⟨rfl, Or.inl rfl⟩
    | homonyms _ hhomonyms => exact ⟨rfl, Or.inr hhomonyms⟩

theorem map_typeName_eq_iff {types types' : List FieldType} (hvalid : ∀ a ∈ types, a.Valid)
    (hvalid' : ∀ b ∈ types', b.Valid) :
    types.map FieldType.typeName = types'.map FieldType.typeName ↔
      List.Forall₂ FieldType.SharesName types types' := by
  induction types generalizing types' with
  | nil => cases types' <;> simp
  | cons a rest ih =>
      cases types' with
      | nil => simp
      | cons b rest' =>
          rw [List.forall_mem_cons] at hvalid hvalid'
          rw [List.map_cons, List.map_cons, List.cons.injEq, List.forall₂_cons,
            FieldType.typeName_eq_iff hvalid.1 hvalid'.1, ih hvalid.2 hvalid'.2]

/-! ## Types of a registry -/

/-- Whether an element is a class that is named by a keyword or by `void`. -/
def ElementType.IsReserved : ElementType → Prop
  | .base _ => False
  | .object className => className = voidName ∨ ∃ b : BaseType, className = b.name

/-- Which flavors the type has that an element stands for. -/
inductive ElementType.HasFlavor : ElementType → Flavor → Prop
  | base (b : BaseType) : HasFlavor (.base b) (.primitive b)
  | classType (name : String) : HasFlavor (.object name) .classType
  | interfaceType (name : String) : HasFlavor (.object name) .interfaceType

namespace Registry

variable {r r' : Registry} {t : TypeId} {τ : FieldType} {d : Definition} {spec : ClassSpec}

/-- Whether a type is the one that a field type stands for: with as many dimensions, over
the base type or over a class or interface of the name. -/
def Denotes (r : Registry) (t : TypeId) (τ : FieldType) : Prop :=
  ∃ bottom d, r.elementAt τ.dimensions t = some bottom ∧ r.definition? bottom = some d ∧
    d.name = τ.element.typeName ∧ τ.element.HasFlavor d.flavor

/-! ### Flavors go with names -/

def FitsFlavor (name : String) : Flavor → Prop
  | .primitive b => name = b.name
  | .void => name = voidName
  | .classType => definable name = true
  | .interfaceType => definable name = true
  | .array _ => True

def Fitting (r : Registry) : Prop :=
  ∀ t d, r.definition? t = some d → FitsFlavor d.name d.flavor

theorem fitting_initial : initial.Fitting := by
  intro t d hd
  have hmem : d ∈ builtin := by
    have hdefinitions : initial.definitions = builtin.toArray := rfl
    rw [definition?, hdefinitions, List.getElem?_toArray] at hd
    exact List.mem_of_getElem? hd
  rcases List.mem_append.mp hmem with hbase | hother
  · obtain ⟨base, -, rfl⟩ := List.mem_map.mp hbase
    rfl
  · simp only [List.mem_cons, List.not_mem_nil, or_false] at hother
    rcases hother with rfl | rfl
    · rfl
    · change definable rootTypeName = true
      decide +kernel

theorem Extends.fitting (hext : r.Extends r') (hfitting : r.Fitting) : r'.Fitting := by
  intro t d hd
  by_cases hknown : r.Knows t
  · rw [hext.definition?_eq hknown] at hd
    exact hfitting t d hd
  · obtain ⟨-, component, harray⟩ := hext.array hknown hd
    rw [harray]
    trivial

theorem Fitting.define (hfitting : r.Fitting) (hsound : r.Sound) (spec : ClassSpec) :
    (stateAfter (define spec r)).Fitting := by
  cases hdefine : Registry.define spec r with
  | error error r' => exact (define_eq_error hsound hdefine).1.fitting hfitting
  | ok t r' =>
      obtain ⟨hname, ancestor, declared, r₁, hext, -, -, -, -, rfl⟩ :=
        define_eq_ok hsound hdefine
      intro u e he
      change (Registry.attachBytes _ _ _).definition? u = some e at he
      rw [definition?_attachBytes, definition?_insert_eq_some_iff] at he
      rcases he with ⟨-, rfl⟩ | hold
      · unfold classDefinition
        cases spec.isInterface <;> exact hname
      · exact hext.fitting hfitting u e hold

theorem Fitting.apply (hfitting : r.Fitting) (hsound : r.Sound) (o : Operation) :
    (o.apply r).Fitting := by
  cases hspec : o.spec? with
  | some spec =>
      rw [Operation.apply_of_spec? hspec]
      exact hfitting.define hsound spec
  | none =>
      have heffect := Operation.effect hsound o
      generalize o.apply r = after at heffect ⊢
      cases heffect with
      | grows hext _ _ => exact hext.fitting hfitting
      | defines d bytes hdefines _ _ =>
          exact absurd ((hdefines d.name).mpr rfl) (Operation.not_defines hspec d.name)
      | attaches _ _ => exact hfitting

theorem Reachable.fitting (hreachable : r.Reachable) : r.Fitting := by
  induction hreachable with
  | refl => exact fitting_initial
  | step o hbefore ih => exact ih.apply (Reachable.sound hbefore) o

/-! ### What is found by a name -/

theorem not_isReserved_of_definable {name : String} (hname : definable name = true) :
    ¬(ElementType.object name).IsReserved := by
  intro hreserved
  rcases hreserved with hvoid | ⟨b, rfl⟩
  · exact ne_voidName_of_definable hname hvoid
  · have hkeyword : definable b.name = false := by cases b <;> decide +kernel
    rw [hkeyword] at hname
    cases hname

/-- A definition of an element's name is what the element stands for, unless the element
is a class of a reserved name. -/
theorem hasFlavor_iff {e : ElementType} {flavor : Flavor} (hfits : FitsFlavor e.typeName flavor)
    (hplain : flavor.component? = none) : e.HasFlavor flavor ↔ ¬e.IsReserved := by
  have hclass (hname : definable e.typeName = true) : ∃ name, e = .object name ∧ ¬e.IsReserved := by
    cases e with
    | base b => exact absurd (Or.inr ⟨b, rfl⟩) (not_isReserved_of_definable hname)
    | object name => exact ⟨name, rfl, not_isReserved_of_definable hname⟩
  cases flavor with
  | array component => cases hplain
  | classType =>
      obtain ⟨name, rfl, hfree⟩ := hclass hfits
      exact iff_of_true (.classType name) hfree
  | interfaceType =>
      obtain ⟨name, rfl, hfree⟩ := hclass hfits
      exact iff_of_true (.interfaceType name) hfree
  | void =>
      cases e with
      | base b =>
          have hne : b.name ≠ voidName := by cases b <;> decide
          exact absurd hfits hne
      | object name =>
          refine iff_of_false ?_ (not_not_intro (Or.inl hfits))
          intro hflavor
          cases hflavor
  | primitive b =>
      cases e with
      | base b' =>
          obtain rfl := BaseType.name_inj.mp hfits
          exact iff_of_true (.base _) not_false
      | object name =>
          refine iff_of_false ?_ (not_not_intro (Or.inr ⟨b, hfits⟩))
          intro hflavor
          cases hflavor

/-- What is found by the name of a type is this type, unless its element is a class of a
reserved name.  Such a class is never found. -/
theorem denotes_iff (hreachable : r.Reachable) (hvalid : τ.Valid)
    (ht : r.get? τ.typeName = some t) : r.Denotes t τ ↔ ¬τ.element.IsReserved := by
  have hlayered := hreachable.layered
  obtain ⟨top, htop, hname⟩ := hlayered.current ht
  obtain ⟨bottom, hbottom, hbottomName, hle⟩ := hlayered.exists_elementAt htop hname
  have hknown : r.Knows bottom := Nat.lt_of_le_of_lt hle (hlayered.knows_of_get? ht)
  obtain ⟨d, hd⟩ := knows_iff.mp hknown
  rw [nameOf_eq hd] at hbottomName
  have hplain : d.flavor.component? = none := by
    cases hflavor : d.flavor.component? with
    | none => rfl
    | some c =>
        obtain ⟨inner, harray, -⟩ := hlayered.array hd hflavor
        have hbare := isBare_typeName hvalid.element
        rw [← hbottomName, harray] at hbare
        exact absurd hbare (not_isBare_append_brackets inner)
  have hfits := hreachable.fitting bottom d hd
  rw [hbottomName] at hfits
  rw [← hasFlavor_iff hfits hplain]
  constructor
  · intro hdenotes
    obtain ⟨bottom', d', hbottom', hd', -, hflavor⟩ := hdenotes
    rw [hbottom, Option.some.injEq] at hbottom'
    rw [← hbottom', hd, Option.some.injEq] at hd'
    rw [hd']
    exact hflavor
  · intro hflavor
    exact ⟨bottom, d, hbottom, hd, hbottomName, hflavor⟩

/-- Whether the types found for the parameters of a descriptor are the ones it names, except
for classes of reserved names. -/
def Found (r : Registry) (types : List FieldType) (ts : List TypeId) : Prop :=
  List.Forall₂ (fun τ t => r.Denotes t τ ↔ ¬τ.element.IsReserved) types ts

theorem found_of_get? {types : List FieldType} {ts : List TypeId} (hreachable : r.Reachable)
    (hvalid : ∀ τ ∈ types, τ.Valid)
    (hts : List.Forall₂ (fun name t => r.get? name = some t) (types.map FieldType.typeName) ts) :
    r.Found types ts := by
  rw [List.forall₂_map_left_iff] at hts
  have hboth := (List.forall₂_and_left types ts).mpr ⟨hvalid, hts⟩
  exact hboth.imp fun τ t hτ => denotes_iff hreachable hτ.1 hτ.2

theorem ofDescriptor_eq_ok {text name : String} {flags : MethodFlags}
    {annotations : List Annotation} {m : MethodDescriptor} {method : MethodSpec}
    (hm : Descriptor.parseMethod text = .ok m)
    (hspec : MethodSpec.ofDescriptor name text flags annotations = .ok method) :
    method.parameters = m.parameterTypeNames := by
  rw [ofDescriptor_of_parseMethod hm] at hspec
  cases hspec
  rfl

theorem found_of_define (hreachable : r.Reachable) (hdefine : define spec r = .ok t r') :
    ∃ d, r'.definition? t = some d ∧
      List.Forall₂ (fun method declaration => ∀ text name flags annotations m,
        Descriptor.parseMethod text = .ok m →
        MethodSpec.ofDescriptor name text flags annotations = .ok method →
        r'.Found m.parameters declaration.shape.parameters) spec.methods d.methods := by
  obtain ⟨d, hd, hdeclares⟩ := declares_of_define hreachable.sound hdefine
  refine ⟨d, hd, hdeclares.imp ?_⟩
  intro method declaration hdeclared text name flags annotations m hm hspec
  have hparameters := hdeclared.parameters
  rw [ofDescriptor_eq_ok hm hspec] at hparameters
  have hvalid := (Descriptor.parseMethod_eq_ok_iff.mp hm).1
  exact found_of_get? (hreachable.define hdefine) hvalid.parameters hparameters

end Registry

/-! ## Parameters that are loaded -/

namespace World

variable {w w' : World}

theorem keeps_load (name : String) :
    Keeps (fun w : World => w.registry.Reachable) (World.load name) := by
  have hloads : Keeps (fun w : World => w.registry.Reachable)
      (onRegistry (Registry.load name)) := by
    intro w hreachable
    have hstep := hreachable.step (.load name)
    change (stateAfter (Registry.load name w.registry)).Reachable at hstep
    unfold onRegistry
    cases hload : Registry.load name w.registry with
    | ok t r =>
        rw [hload] at hstep
        exact hstep
    | error error r =>
        rw [hload] at hstep
        exact hstep
  exact hloads.map

theorem keeps_loadAll (names : List String) :
    Keeps (fun w : World => w.registry.Reachable) (provider.loadAll names) := by
  induction names with
  | nil => exact keeps_pure _
  | cons name rest ih =>
      exact (keeps_load name).bind fun _ => ih.bind fun _ => keeps_pure _

theorem exists_ids_of_current {names : List String} {ts : List TypeRef}
    (hcurrent : List.Forall₂ w.Current names ts) :
    ∃ ids, ts = ids.map .registered ∧
      List.Forall₂ (fun name id => w.registry.get? name = some id) names ids := by
  induction hcurrent with
  | nil => exact ⟨[], rfl, .nil⟩
  | cons hfirst _ ih =>
      obtain ⟨id, rfl, hid⟩ := hfirst
      obtain ⟨ids, rfl, hids⟩ := ih
      exact ⟨id :: ids, rfl, .cons hid hids⟩

theorem found_of_loadAll {m : MethodDescriptor} {ts : List TypeRef}
    (hreachable : w.registry.Reachable) (hvalid : m.Valid)
    (hload : provider.loadAll m.parameterTypeNames w = .ok ts w') :
    ∃ ids, ts = ids.map .registered ∧ w'.registry.Found m.parameters ids := by
  have hreachable' : w'.registry.Reachable := by
    have hkept := keeps_loadAll m.parameterTypeNames w hreachable
    rw [hload] at hkept
    exact hkept
  have hsame := Grows.refl hreachable.sound
  have halike := alike_loadAll hsame hsame m.parameterTypeNames
  rw [hload] at halike
  cases halike with
  | ok _ _ hcurrent =>
      obtain ⟨ids, hids, hget⟩ := exists_ids_of_current hcurrent.1
      exact ⟨ids, hids, Registry.found_of_get? hreachable' hvalid.parameters hget⟩

end World

/-! ## Names and types -/

/-- Types of descriptors have the same name only if they are equal or over homonyms, and so
have the parameters of two methods.  What is loaded for a parameter, for a delegation or for
a new class, is the type that the descriptor names, unless this is over a class of a
reserved name. -/
theorem typeNames_identify_types :
    (∀ (text text' : String) (a b : FieldType), Descriptor.parseField text = .ok a →
      Descriptor.parseField text' = .ok b → (a.typeName = b.typeName ↔ a.SharesName b)) ∧
    (∀ (text text' : String) (m m' : MethodDescriptor), Descriptor.parseMethod text = .ok m →
      Descriptor.parseMethod text' = .ok m' →
      (m.parameterTypeNames = m'.parameterTypeNames ↔
        List.Forall₂ FieldType.SharesName m.parameters m'.parameters)) ∧
    (∀ (w w' : World) (text : String) (m : MethodDescriptor) (ts : List TypeRef),
      w.registry.Reachable → Descriptor.parseMethod text = .ok m →
      World.provider.loadAll m.parameterTypeNames w = .ok ts w' →
      ∃ ids, ts = ids.map .registered ∧ w'.registry.Found m.parameters ids) ∧
    ∀ (r r' : Registry) (spec : ClassSpec) (t : TypeId), r.Reachable →
      Registry.define spec r = .ok t r' →
      ∃ d, r'.definition? t = some d ∧
        List.Forall₂ (fun method declaration => ∀ text name flags annotations m,
          Descriptor.parseMethod text = .ok m →
          MethodSpec.ofDescriptor name text flags annotations = .ok method →
          r'.Found m.parameters declaration.shape.parameters) spec.methods d.methods := by
  refine ⟨?_, ?_, ?_, ?_⟩
  · intro text text' a b ha hb
    have hvalid := (Descriptor.parseField_eq_ok_iff.mp ha).1
    have hvalid' := (Descriptor.parseField_eq_ok_iff.mp hb).1
    exact FieldType.typeName_eq_iff hvalid hvalid'
  · intro text text' m m' hm hm'
    have hvalid := (Descriptor.parseMethod_eq_ok_iff.mp hm).1
    have hvalid' := (Descriptor.parseMethod_eq_ok_iff.mp hm').1
    exact map_typeName_eq_iff hvalid.parameters hvalid'.parameters
  · intro w w' text m ts hreachable hm hload
    exact World.found_of_loadAll hreachable (Descriptor.parseMethod_eq_ok_iff.mp hm).1 hload
  · intro r r' spec t hreachable hdefine
    exact Registry.found_of_define hreachable hdefine

/-! ## A class that is named `int` -/

/-- A class with one method, which takes what `int` is found to be. -/
def intTaker : ClassSpec where
  name := "T"
  isInterface := false
  parent := none
  methods := [⟨"f", ["int"], voidName, ⟨0⟩, []⟩]
  annotations := []
  classBytes := none

namespace Registry

theorem loadable_int : initial.Loadable "int" :=
  loadable_builtin (by decide +kernel)

theorem exists_define_intTaker : ∃ t r', define intTaker initial = .ok t r' :=
  define_succeeds_initially (by decide +kernel) (by decide +kernel)

end Registry

theorem exists_loadAll_int :
    ∃ ts w', World.provider.loadAll ["int"] ⟨.initial, #[], []⟩ = .ok ts w' := by
  obtain ⟨t, w', hload, -, -⟩ :=
    World.load_of_loadable (w := ⟨.initial, #[], []⟩) Registry.sound_initial Registry.loadable_int
  exact ⟨[t], w', bind_eq_ok.mpr ⟨t, w', hload, rfl⟩⟩

theorem Registry.Found.of_int {r : Registry} {ids : List TypeId}
    (hprimitive : r.Found [⟨0, .base .int⟩] ids) (hclass : r.Found [⟨0, .object "int"⟩] ids) :
    ∃ id, ids = [id] ∧ r.Denotes id ⟨0, .base .int⟩ ∧ ¬r.Denotes id ⟨0, .object "int"⟩ := by
  cases hprimitive with
  | @cons _ id _ _ hbase hnone =>
      cases hnone
      cases hclass with
      | cons hobject _ =>
          have hreserved : (ElementType.object "int").IsReserved := Or.inr ⟨.int, rfl⟩
          exact ⟨id, rfl, hbase.mpr not_false, fun hdenotes => hobject.mp hdenotes hreserved⟩

theorem parseMethod_int : Descriptor.parseMethod "(I)V" = .ok ⟨[⟨0, .base .int⟩], none⟩ := rfl

theorem parseMethod_classInt :
    Descriptor.parseMethod "(Lint;)V" = .ok ⟨[⟨0, .object "int"⟩], none⟩ := rfl

/-- The primitive `int` and a class `int` have one name.  For a delegation and in the signature
of a class, the primitive is found by it. -/
theorem typeNames_identify_int :
    FieldType.typeName ⟨0, .base .int⟩ = FieldType.typeName ⟨0, .object "int"⟩ ∧
    MethodDescriptor.parameterTypeNames ⟨[⟨0, .base .int⟩], none⟩ =
      MethodDescriptor.parameterTypeNames ⟨[⟨0, .object "int"⟩], none⟩ ∧
    (∃ id w', World.provider.loadAll ["int"] ⟨.initial, #[], []⟩ = .ok [.registered id] w' ∧
      w'.registry.Denotes id ⟨0, .base .int⟩ ∧ ¬w'.registry.Denotes id ⟨0, .object "int"⟩) ∧
    ∃ t r' d, Registry.define intTaker .initial = .ok t r' ∧ r'.definition? t = some d ∧
      ∃ declaration ∈ d.methods, ∃ u, declaration.shape.parameters = [u] ∧
        r'.Denotes u ⟨0, .base .int⟩ ∧ ¬r'.Denotes u ⟨0, .object "int"⟩ := by
  obtain ⟨hfields, hmethods, hloads, hdefines⟩ := typeNames_identify_types
  have hhomonyms : FieldType.SharesName ⟨0, .base .int⟩ ⟨0, .object "int"⟩ :=
    .homonyms 0 (.base .int)
  refine ⟨?_, ?_, ?_, ?_⟩
  · exact (hfields "I" "Lint;" _ _ rfl rfl).mpr hhomonyms
  · exact (hmethods _ _ _ _ parseMethod_int parseMethod_classInt).mpr (.cons hhomonyms .nil)
  · obtain ⟨ts, w', hload⟩ := exists_loadAll_int
    have hfound {text : String} {m : MethodDescriptor} (hm : Descriptor.parseMethod text = .ok m)
        (hname : m.parameterTypeNames = ["int"]) :
        ∃ ids, ts = ids.map .registered ∧ w'.registry.Found m.parameters ids :=
      hloads ⟨.initial, #[], []⟩ w' text m ts .refl hm (hname ▸ hload)
    obtain ⟨ids, rfl, hprimitive⟩ := hfound parseMethod_int rfl
    obtain ⟨ids', hids, hclass⟩ := hfound parseMethod_classInt rfl
    have hinjective : Function.Injective TypeRef.registered := by
      intro id id' heq
      cases heq
      rfl
    rw [← List.map_injective_iff.mpr hinjective hids] at hclass
    obtain ⟨id, rfl, hdenotes⟩ := hprimitive.of_int hclass
    exact ⟨id, w', hload, hdenotes⟩
  · obtain ⟨t, r', hdefine⟩ := Registry.exists_define_intTaker
    obtain ⟨d, hd, hfound⟩ := hdefines _ r' intTaker t .refl hdefine
    obtain ⟨declaration, others, hmethod, -, hlist⟩ := List.forall₂_cons_left_iff.mp hfound
    have hprimitive := hmethod "(I)V" "f" ⟨0⟩ [] _ parseMethod_int rfl
    have hclass := hmethod "(Lint;)V" "f" ⟨0⟩ [] _ parseMethod_classInt rfl
    obtain ⟨u, hu, hdenotes⟩ := hprimitive.of_int hclass
    have hmem : declaration ∈ d.methods := by
      rw [hlist]
      exact List.mem_cons_self
    exact ⟨t, r', d, hdefine, hd, declaration, hmem, u, hu, hdenotes⟩

/-- So two types of descriptors with one name need not be equal. -/
theorem not_unambiguous :
    ¬∀ (text text' : String) (a b : FieldType), Descriptor.parseField text = .ok a →
      Descriptor.parseField text' = .ok b → a.typeName = b.typeName → a = b := by
  intro hlaw
  have heq := hlaw "I" "Lint;" ⟨0, .base .int⟩ ⟨0, .object "int"⟩ rfl rfl rfl
  cases heq

end Forwarding
