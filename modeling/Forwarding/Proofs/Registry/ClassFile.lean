import Forwarding.Proofs.Descriptor.Counting
import Forwarding.Proofs.Registry.Reachable

/-!
# Types that come from class files

A type that is defined from a class file declares the methods of the method
table in their order, without the initialisers, each with the name, the flags
and the number of parameters that its entry has.
-/

namespace Forwarding

open ClassFile

namespace Registry

variable {r r' : Registry} {t : TypeId} {bytes : Array UInt8}

/-! ## From entries to specifications -/

/-- The entries that a definition is made from. -/
def usable (table : MethodTable) : List MethodEntry :=
  table.methods.filter fun m => !isInitializer m.name

structure Describes (m : MethodEntry) (spec : MethodSpec) : Prop where
  name : spec.name = m.name
  flags : spec.flags = m.flags
  exists_descriptor : ∃ descriptor, Descriptor.parseMethod m.descriptor = .ok descriptor ∧
    spec.parameters = descriptor.parameterTypeNames ∧
    spec.result = ReturnType.typeName descriptor.result

theorem describes_of_ofDescriptor {m : MethodEntry} {spec : MethodSpec}
    (hspec : MethodSpec.ofDescriptor m.name m.descriptor m.flags [] = .ok spec) :
    Describes m spec := by
  obtain ⟨descriptor, hdescriptor, rfl⟩ := except_map_eq_ok.mp hspec
  exact ⟨rfl, rfl, descriptor, except_mapError_eq_ok.mp hdescriptor, rfl, rfl⟩

theorem specsOfEntries_eq_ok {failure : Option Error} {entries : List MethodEntry}
    {specs : List MethodSpec} (hspecs : specsOfEntries failure entries = .ok specs) :
    failure = none ∧
      List.Forall₂ Describes (entries.filter fun m => !isInitializer m.name) specs := by
  induction entries generalizing specs with
  | nil =>
      unfold specsOfEntries at hspecs
      split at hspecs
      next => cases hspecs
      next => cases hspecs; exact ⟨rfl, .nil⟩
  | cons m rest ih =>
      unfold specsOfEntries at hspecs
      split at hspecs
      next hinitializer =>
        rw [List.filter_cons_of_neg (by simp [hinitializer])]
        exact ih hspecs
      next hinitializer =>
        obtain ⟨first, hfirst, hothers⟩ := except_bind_eq_ok.mp hspecs
        obtain ⟨others, hrest, hcons⟩ := except_bind_eq_ok.mp hothers
        cases hcons
        obtain ⟨hfailure, hall⟩ := ih hrest
        rw [List.filter_cons_of_pos (by simp [hinitializer])]
        exact ⟨hfailure, .cons (describes_of_ofDescriptor hfirst) hall⟩

theorem specOfClassFile_eq_ok {spec : ClassSpec} (hspec : specOfClassFile bytes = .ok spec) :
    spec.classBytes = some bytes ∧
      ∃ file table, ClassFile.parse bytes = .ok file ∧ file.methods = .ok table ∧
        table.failure = none ∧ List.Forall₂ Describes (usable table) spec.methods := by
  obtain ⟨file, hfile, hspec⟩ := except_bind_eq_ok.mp hspec
  obtain ⟨name, -, hspec⟩ := except_bind_eq_ok.mp hspec
  obtain ⟨parent, -, hspec⟩ := except_bind_eq_ok.mp hspec
  obtain ⟨table, htable, hspec⟩ := except_bind_eq_ok.mp hspec
  obtain ⟨methods, hmethods, hspec⟩ := except_bind_eq_ok.mp hspec
  cases hspec
  obtain ⟨hfailure, hall⟩ := specsOfEntries_eq_ok hmethods
  exact ⟨rfl, file, table, hfile, htable, hfailure, hall⟩

/-! ## From specifications to declarations -/

/-- What a declaration has from the entry that it comes from. -/
structure DeclaredAs (m : MethodEntry) (declaration : Declaration TypeId) : Prop where
  name : declaration.shape.name = m.name
  flags : declaration.flags = m.flags
  parameters : Descriptor.parameterCount m.descriptor =
    .ok declaration.shape.parameters.length

theorem declaredAs_of_describes {own : String} {m : MethodEntry} {spec : MethodSpec}
    {s : Signature} (hdescribes : Describes m spec)
    (hresolves : Signature.Resolves own r spec s) : DeclaredAs m (s.declare t) := by
  obtain ⟨descriptor, hdescriptor, hparameters, -⟩ := hdescribes.exists_descriptor
  constructor
  · change s.spec.name = m.name
    rw [hresolves.spec_eq, hdescribes.name]
  · change s.spec.flags = m.flags
    rw [hresolves.spec_eq, hdescribes.flags]
  · have hlength := hresolves.parameters.length_eq
    rw [hparameters, MethodDescriptor.parameterTypeNames, List.length_map] at hlength
    rw [Descriptor.parameterCount_of_parseMethod hdescriptor, hlength]
    simp [Signature.declare]

theorem forall₂_declaredAs {own : String} {entries : List MethodEntry}
    {specs : List MethodSpec} {declared : List Signature}
    (hspecs : List.Forall₂ Describes entries specs)
    (hdeclared : List.Forall₂ (Signature.Resolves own r) specs declared) :
    List.Forall₂ DeclaredAs entries (declared.map (Signature.declare t)) := by
  rw [List.forall₂_map_right_iff]
  exact forall₂_trans hspecs hdeclared fun _ _ _ hdescribes hresolves =>
    declaredAs_of_describes hdescribes hresolves

theorem defineClassFile_eq_ok (hsound : r.Sound)
    (hdefine : defineClassFile bytes r = .ok t r') :
    ∃ file table d, ClassFile.parse bytes = .ok file ∧ file.methods = .ok table ∧
      r'.definition? t = some d ∧ List.Forall₂ DeclaredAs (usable table) d.methods := by
  unfold defineClassFile at hdefine
  cases hspec : specOfClassFile bytes with
  | error error => rw [hspec] at hdefine; cases hdefine
  | ok spec =>
      rw [hspec] at hdefine
      obtain ⟨-, ancestor, declared, r₁, -, -, -, hdeclared, rfl, rfl⟩ :=
        define_eq_ok hsound hdefine
      obtain ⟨-, file, table, hfile, htable, -, hdescribes⟩ := specOfClassFile_eq_ok hspec
      exact ⟨file, table, _, hfile, htable, definition?_nextId _ _,
        forall₂_declaredAs hdescribes hdeclared⟩

/-! ## Types and their class files -/

/-- Whether a type was made from a class file and both the type and the bytes
are still the current ones of its name. -/
structure MadeFrom (r : Registry) (t : TypeId) (bytes : Array UInt8) : Prop where
  defined : ∃ r₀ r₁, r₀.Reachable ∧ defineClassFile bytes r₀ = .ok t r₁ ∧ r₁.Reaches r
  current : r.get? (r.nameOf t) = some t
  bytes : r.bytesOf (r.nameOf t) = .ok bytes

theorem MadeFrom.sound (hmade : r.MadeFrom t bytes) : r.Sound := by
  obtain ⟨r₀, r₁, hreachable, hdefine, hreaches⟩ := hmade.defined
  exact hreaches.sound (hreachable.defineClassFile hdefine).sound

/-- Whether a handle is that of the method that a type declares for an entry of
its class file. -/
def HandleOf (r : Registry) (t : TypeId) (table : MethodTable) (m : MethodEntry)
    (handle : Method TypeId) : Prop :=
  ∃ (d : Definition) (declaration : Declaration TypeId), r.definition? t = some d ∧
    (m, declaration) ∈ (usable table).zip d.methods ∧
    handle = { declaration with owner := t }

theorem MadeFrom.declarations {file : ClassFile} {table : MethodTable}
    (hmade : r.MadeFrom t bytes) (hfile : ClassFile.parse bytes = .ok file)
    (htable : file.methods = .ok table) :
    ∃ d, r.definition? t = some d ∧ List.Forall₂ DeclaredAs (usable table) d.methods := by
  obtain ⟨r₀, r₁, hreachable, hdefine, hreaches⟩ := hmade.defined
  have hsound₁ := (hreachable.defineClassFile hdefine).sound
  obtain ⟨file', table', d, hfile', htable', hd, hall⟩ :=
    defineClassFile_eq_ok hreachable.sound hdefine
  cases hfile.symm.trans hfile'
  cases htable.symm.trans htable'
  exact ⟨d, hreaches.definition? hsound₁ hd, hall⟩

theorem MadeFrom.exists_parameterCount {file : ClassFile} {table : MethodTable}
    {m : MethodEntry} (hmade : r.MadeFrom t bytes) (hfile : ClassFile.parse bytes = .ok file)
    (htable : file.methods = .ok table) (hm : m ∈ table.methods)
    (hname : isInitializer m.name = false) :
    ∃ n, Descriptor.parameterCount m.descriptor = .ok n := by
  obtain ⟨d, -, hall⟩ := hmade.declarations hfile htable
  have hflip : List.Forall₂ (flip DeclaredAs) d.methods (usable table) :=
    List.Forall₂.flip hall
  have husable : m ∈ usable table := List.mem_filter.mpr ⟨hm, by simp [hname]⟩
  obtain ⟨declaration, hdeclared⟩ := exists_of_forall₂ hflip husable
  exact ⟨_, hdeclared.parameters⟩

theorem HandleOf.declaredAs {file : ClassFile} {table : MethodTable} {m : MethodEntry}
    {handle : Method TypeId} (hhandle : r.HandleOf t table m handle)
    (hmade : r.MadeFrom t bytes) (hfile : ClassFile.parse bytes = .ok file)
    (htable : file.methods = .ok table) :
    m ∈ usable table ∧ DeclaredAs m handle.toDeclaration ∧ handle.owner = t := by
  obtain ⟨d, declaration, hd, hzip, rfl⟩ := hhandle
  obtain ⟨d', hd', hall⟩ := hmade.declarations hfile htable
  cases hd.symm.trans hd'
  exact ⟨(List.of_mem_zip hzip).1, List.forall₂_zip hall hzip, rfl⟩

theorem madeFrom_of_define (hreachable : r.Reachable)
    (hdefine : defineClassFile bytes r = .ok t r') : r'.MadeFrom t bytes := by
  have hdefined := hdefine
  unfold defineClassFile at hdefine
  cases hspec : specOfClassFile bytes with
  | error error => rw [hspec] at hdefine; cases hdefine
  | ok spec =>
      rw [hspec] at hdefine
      obtain ⟨-, ancestor, declared, r₁, -, -, -, -, rfl, rfl⟩ :=
        define_eq_ok hreachable.sound hdefine
      rw [(specOfClassFile_eq_ok hspec).1] at hdefined ⊢
      have hname : (r₁.insert (classDefinition spec ancestor declared r₁.nextId)).nameOf
          r₁.nextId = spec.name :=
        nameOf_eq ((definition?_insert ..).trans (if_pos rfl))
      refine ⟨⟨r, _, hreachable, hdefined, .refl⟩, ?_, ?_⟩
      · change (r₁.insert _).get? ((r₁.insert _).nameOf _) = _
        rw [hname]
        exact (get?_insert ..).trans (if_pos rfl)
      · change ((r₁.insert _).setBytes _ _).bytesOf ((r₁.insert _).nameOf _) = _
        rw [hname, bytesOf_setBytes, if_pos rfl]

theorem MadeFrom.exists_handle {file : ClassFile} {table : MethodTable} {m : MethodEntry}
    (hmade : r.MadeFrom t bytes) (hfile : ClassFile.parse bytes = .ok file)
    (htable : file.methods = .ok table) (hm : m ∈ usable table) :
    ∃ handle, r.HandleOf t table m handle := by
  obtain ⟨d, hd, hall⟩ := hmade.declarations hfile htable
  obtain ⟨position, hposition, rfl⟩ := List.mem_iff_getElem.mp hm
  have hlength : position < d.methods.length := hall.length_eq ▸ hposition
  refine ⟨_, d, d.methods[position], hd, ?_, rfl⟩
  have hzip : position < ((usable table).zip d.methods).length := by
    rw [List.length_zip]
    exact Nat.lt_min.mpr ⟨hposition, hlength⟩
  exact List.mem_iff_getElem.mpr ⟨position, hzip, List.getElem_zip⟩

end Registry

end Forwarding
