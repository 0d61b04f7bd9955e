import Forwarding.Proofs.Registry.Listing
import Forwarding.Proofs.Session.Lookup

/-!
# Classes that have been defined

When a class file has been defined, its name loads the class, its bytes are those of the class,
and the class lists the methods of the file with the types that they name.  A class that
mentions built-in types only can be defined in a new registry.
-/

namespace Forwarding.World

/-- A method with its types by their names. -/
structure Profile where
  name : String
  parameters : List String
  result : String
  flags : MethodFlags
  deriving DecidableEq

def Profile.of (m : MethodSpec) : Profile :=
  ⟨m.name, m.parameters, m.result, m.flags⟩

/-- Whether a type lists a method with a profile. -/
structure Lists (w : World) (t : TypeRef) (profile : Profile) (m : Method TypeRef) :
    Prop where
  owner : m.owner = t
  name : m.shape.name = profile.name
  parameters : List.Forall₂ (fun name p => w.nameOf p = name) profile.parameters
    m.shape.parameters
  result : w.nameOf m.result = profile.result
  flags : m.flags = profile.flags

/-- What there is to know about a class once its class file has been defined. -/
structure Defined (w : World) (t : TypeRef) (className : String) (content : Array UInt8)
    (profiles : List Profile) : Prop where
  reachable : w.registry.Reachable
  closed : w.Closed
  name : w.nameOf t = className
  load : provider.load className w = .ok t w
  bytes : provider.classBytes w t = .ok content
  methods : List.Forall₂ (w.Lists t) profiles (w.methods t)

section

variable {w : World} {t : TypeRef} {m : Method TypeRef} {profile : Profile}

theorem Lists.shape (hlists : w.Lists t profile m) (hnone : profile.parameters = []) :
    m.shape = ⟨profile.name, []⟩ := by
  have hparameters := hlists.parameters
  rw [hnone, List.forall₂_nil_left_iff] at hparameters
  rw [← hlists.name, ← hparameters]

theorem Lists.isStub (hlists : w.Lists t profile m) : m.isStub = profile.flags.isStub := by
  rw [Method.isStub, hlists.flags]

end

variable {spec : ClassSpec} {content : Array UInt8} {r r' : Registry} {t : TypeId}

theorem lists_of_define (hosts : Array HostType) (held : List TypeId) (hreachable : r.Reachable)
    (hdefine : Registry.define spec r = .ok t r') :
    List.Forall₂ (World.Lists ⟨r', hosts, held⟩ (.registered t))
      (spec.methods.map Profile.of)
      (World.methods ⟨r', hosts, held⟩ (.registered t)) := by
  obtain ⟨declared, hdeclares, hlisted⟩ := Registry.declaredMethods_of_define hreachable hdefine
  have hsound := (hreachable.define hdefine).sound
  change List.Forall₂ _ _ ((r'.declaredMethods held t).map _)
  rw [hlisted, List.map_map, List.forall₂_map_left_iff, List.forall₂_map_right_iff]
  refine hdeclares.imp fun m declaration hdeclared => ⟨rfl, hdeclared.name, ?_, ?_, ?_⟩
  · change List.Forall₂ _ m.parameters (declaration.shape.parameters.map TypeRef.registered)
    rw [List.forall₂_map_right_iff]
    exact hdeclared.parameters.imp fun _ _ => hsound.nameOf_of_get?
  · exact hsound.nameOf_of_get? hdeclared.result
  · exact hdeclared.flags

theorem defined_of_define {hosts : Array HostType} {held : List TypeId} (hreachable : r.Reachable)
    (hspec : Registry.specOfClassFile content = .ok spec)
    (hdefine : Registry.define spec r = .ok t r') (hclosed : World.Closed ⟨r', hosts, held⟩) :
    Defined ⟨r', hosts, held⟩ (.registered t) spec.name content (spec.methods.map Profile.of) := by
  have hcurrent := Registry.get?_of_define hreachable.sound hdefine
  have hmade : r'.MadeFrom t content := by
    apply Registry.madeFrom_of_define hreachable
    rw [Registry.defineClassFile_of_spec hspec]
    exact hdefine
  have hafter := hreachable.define hdefine
  refine ⟨hafter, hclosed, hafter.sound.nameOf_of_get? hcurrent, ?_, hmade.bytes,
    lists_of_define hosts held hreachable hdefine⟩
  refine map_eq_ok.mpr ⟨t, ?_, rfl⟩
  simp only [onRegistry, Registry.load_of_get? hcurrent]

/-- A class file that mentions built-in types only can be defined at once. -/
theorem exists_defined (hspec : Registry.specOfClassFile content = .ok spec)
    (hname : Registry.definable spec.name = true)
    (hbuiltin : ∀ name ∈ spec.parent.toList ++
        spec.methods.flatMap fun method => method.result :: method.parameters,
      name ∈ Registry.builtin.map Definition.name) :
    ∃ (w : World) (t : TypeRef), w.Defined t spec.name content (spec.methods.map Profile.of) := by
  obtain ⟨t, r, hdefine⟩ := Registry.define_succeeds_initially hname hbuiltin
  have hclosed : World.Closed ⟨r, #[], []⟩ := fun host hhost => by simp at hhost
  exact ⟨⟨r, #[], []⟩, .registered t, defined_of_define .refl hspec hdefine hclosed⟩

/-! ## Overloads by result -/

/-- A class `T` with four methods without parameters: a stub `f` that calls the `g` that
gives an `int`, a `g` that gives a `long`, the `g` that gives an `int`, and a stub `h` that
calls itself. -/
def resultOverloads : Array UInt8 := #[
  0xCA, 0xFE, 0xBA, 0xBE, 0x00, 0x00, 0x00, 0x34, 0x00, 0x10, 0x01, 0x00,
  0x01, 0x54, 0x07, 0x00, 0x01, 0x01, 0x00, 0x10, 0x6A, 0x61, 0x76, 0x61,
  0x2F, 0x6C, 0x61, 0x6E, 0x67, 0x2F, 0x4F, 0x62, 0x6A, 0x65, 0x63, 0x74,
  0x07, 0x00, 0x03, 0x01, 0x00, 0x01, 0x66, 0x01, 0x00, 0x03, 0x28, 0x29,
  0x49, 0x01, 0x00, 0x01, 0x67, 0x0C, 0x00, 0x07, 0x00, 0x06, 0x0A, 0x00,
  0x02, 0x00, 0x08, 0x01, 0x00, 0x04, 0x43, 0x6F, 0x64, 0x65, 0x01, 0x00,
  0x03, 0x28, 0x29, 0x4A, 0x01, 0x00, 0x01, 0x68, 0x01, 0x00, 0x03, 0x28,
  0x29, 0x56, 0x0C, 0x00, 0x0C, 0x00, 0x0D, 0x0A, 0x00, 0x02, 0x00, 0x0E,
  0x00, 0x21, 0x00, 0x02, 0x00, 0x04, 0x00, 0x00, 0x00, 0x00, 0x00, 0x04,
  0x10, 0x41, 0x00, 0x05, 0x00, 0x06, 0x00, 0x01, 0x00, 0x0A, 0x00, 0x00,
  0x00, 0x10, 0x00, 0x02, 0x00, 0x02, 0x00, 0x00, 0x00, 0x04, 0xB8, 0x00,
  0x09, 0xAC, 0x00, 0x00, 0x00, 0x00, 0x01, 0x01, 0x00, 0x07, 0x00, 0x0B,
  0x00, 0x00, 0x01, 0x01, 0x00, 0x07, 0x00, 0x06, 0x00, 0x00, 0x10, 0x41,
  0x00, 0x0C, 0x00, 0x0D, 0x00, 0x01, 0x00, 0x0A, 0x00, 0x00, 0x00, 0x10,
  0x00, 0x02, 0x00, 0x02, 0x00, 0x00, 0x00, 0x04, 0xB8, 0x00, 0x0F, 0xB1,
  0x00, 0x00, 0x00, 0x00, 0x00, 0x00]

def overloads : List Profile :=
  [⟨"f", [], "int", ⟨0x1041⟩⟩, ⟨"g", [], "long", ⟨0x0101⟩⟩, ⟨"g", [], "int", ⟨0x0101⟩⟩,
    ⟨"h", [], "void", ⟨0x1041⟩⟩]

/-- Whether a world has this class. -/
def HasOverloads (w : World) (t : TypeRef) : Prop :=
  w.Defined t "T" resultOverloads overloads

theorem exists_hasOverloads : ∃ (w : World) (t : TypeRef), w.HasOverloads t := by
  have hcomputed : (Registry.specOfClassFile resultOverloads).toOption.map (fun spec =>
        (spec.name, spec.parent, spec.methods.map Profile.of)) =
      some ("T", some rootTypeName, overloads) := by
    decide +kernel
  obtain ⟨spec, hspec, hcomputed⟩ := Option.map_eq_some_iff.mp hcomputed
  simp only [Prod.mk.injEq] at hcomputed
  obtain ⟨hname, hparent, hprofiles⟩ := hcomputed
  have hnames : ∀ profile ∈ overloads, ∀ name ∈ profile.result :: profile.parameters,
      name ∈ Registry.builtin.map Definition.name := by decide +kernel
  have hdefined := exists_defined (except_toOption_eq_some.mp hspec) (by rw [hname]; decide +kernel)
    fun name hmem => by
      rcases List.mem_append.mp hmem with hroot | hmentioned
      · rw [hparent] at hroot
        rw [List.mem_singleton.mp hroot]
        decide +kernel
      · obtain ⟨m, hm, hmentioned⟩ := List.mem_flatMap.mp hmentioned
        have hprofile := List.mem_map_of_mem (f := Profile.of) hm
        rw [hprofiles] at hprofile
        exact hnames _ hprofile name hmentioned
  rwa [hname, hprofiles] at hdefined

/-- The four methods of the class. -/
structure Overloads (w : World) (t : TypeRef) (f long int h : Method TypeRef) : Prop where
  methods : w.methods t = [f, long, int, h]
  f : w.Lists t ⟨"f", [], "int", ⟨0x1041⟩⟩ f
  long : w.Lists t ⟨"g", [], "long", ⟨0x0101⟩⟩ long
  int : w.Lists t ⟨"g", [], "int", ⟨0x0101⟩⟩ int
  h : w.Lists t ⟨"h", [], "void", ⟨0x1041⟩⟩ h

theorem HasOverloads.exists_overloads {w : World} {t : TypeRef} (hhas : w.HasOverloads t) :
    ∃ f long int h, w.Overloads t f long int h := by
  have hmethods := hhas.methods
  unfold overloads at hmethods
  generalize hlisted : w.methods t = listed at hmethods
  rcases hmethods with _ | ⟨hf, _ | ⟨hlong, _ | ⟨hint, _ | ⟨hh, _ | _⟩⟩⟩⟩
  exact ⟨_, _, _, _, hlisted, hf, hlong, hint, hh⟩

end Forwarding.World
