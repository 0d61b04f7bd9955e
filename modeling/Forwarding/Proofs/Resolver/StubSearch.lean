import Forwarding.Proofs.Registry.Runs
import Forwarding.Proofs.Resolver.FirstHop

/-!
# Looking for the stubs that a type lists

A class file is read twice: once when its type is defined, and again whenever one
of the type's stubs is looked for.  The second reading finds a candidate for every
stub that the type lists, so it can fail only in the candidate's own code.
-/

namespace Forwarding

open ClassFile

namespace Registry

variable {r r₀ r₁ : Registry} {t : TypeId} {bytes : Array UInt8} {operations : List Operation}
  {held : List TypeId} {handle : Method TypeId} {file : ClassFile} {table : MethodTable}

/-! ## Types that stay what they were made from -/

/-- A type that is current after a run still is what it was made from unless other
bytes have been attached to its name. -/
theorem madeFrom_after (hreachable : r₀.Reachable)
    (hdefine : defineClassFile bytes r₀ = .ok t r₁)
    (hcurrent : (r₁.after operations).get? ((r₁.after operations).nameOf t) = some t)
    (hkept : ∀ other, .registerBytes (r₁.nameOf t) other ∈ operations → other = bytes) :
    (r₁.after operations).MadeFrom t bytes := by
  have hmade := madeFrom_of_define hreachable hdefine
  have hknown := hmade.sound.knows_of_get? hmade.current
  have hname := nameOf_after hmade.sound hknown operations
  refine ⟨⟨r₀, r₁, hreachable, hdefine, reaches_after r₁ operations⟩, hcurrent, ?_⟩
  rw [hname] at hcurrent ⊢
  have hnone := ((get?_after_iff hmade.sound hknown rfl operations).mp hcurrent).2
  exact bytesOf_after hmade.sound hnone hkept hmade.bytes

/-! ## Handles and entries -/

/-- Every method that a type lists is that of an entry of its class file. -/
theorem MadeFrom.exists_entry (hmade : r.MadeFrom t bytes)
    (hfile : ClassFile.parse bytes = .ok file) (htable : file.methods = .ok table)
    (hhandle : handle ∈ r.declaredMethods held t) :
    ∃ m, r.HandleOf t table m handle := by
  obtain ⟨d, hd, hall⟩ := hmade.declarations hfile htable
  obtain ⟨declaration, hmem, -, heq⟩ := (mem_declaredMethods_iff hd).mp hhandle
  obtain ⟨position, hposition, hget⟩ := List.mem_iff_getElem.mp hmem
  have hentry : position < (usable table).length := by
    rw [hall.length_eq]
    exact hposition
  have hzip : position < ((usable table).zip d.methods).length := by
    rw [List.length_zip]
    exact Nat.lt_min.mpr ⟨hentry, hposition⟩
  refine ⟨(usable table)[position], d, declaration, hd, ?_, heq⟩
  rw [← hget]
  exact List.mem_iff_getElem.mpr ⟨position, hzip, List.getElem_zip⟩

end Registry

namespace Resolver

open Registry

variable {r r₀ r₁ : Registry} {t : TypeId} {bytes : Array UInt8} {operations : List Operation}
  {held : List TypeId} {handle : Method TypeId}

/-! ## The search -/

theorem exists_firstFits_of_isStub {file : ClassFile} {table : MethodTable} {m : MethodEntry}
    (hmade : r.MadeFrom t bytes) (hfile : ClassFile.parse bytes = .ok file)
    (htable : file.methods = .ok table) (hhandle : r.HandleOf t table m handle)
    (hstub : handle.isStub = true) :
    ∃ first, Delegation.FirstFits handle.shape.name handle.shape.parameters.length
      table.methods first := by
  obtain ⟨husable, hdeclared, -⟩ := hhandle.declaredAs hmade hfile htable
  have hflags : m.flags.isStub = true := by
    rw [← hdeclared.flags]
    exact hstub
  exact Delegation.exists_firstFits (List.mem_filter.mp husable).1
    ⟨hflags, hdeclared.name.symm, hdeclared.parameters⟩

/-- As long as a type is current and no other bytes are attached to its name, its
class bytes are there, and the search for any stub that it lists comes to a
candidate.  It fails only if the candidate's code has no call, cannot be decoded up
to it or calls what is no method. -/
theorem stub_found (hreachable : r₀.Reachable)
    (hdefine : defineClassFile bytes r₀ = .ok t r₁)
    (hcurrent : (r₁.after operations).get? ((r₁.after operations).nameOf t) = some t)
    (hkept : ∀ other, .registerBytes (r₁.nameOf t) other ∈ operations → other = bytes)
    (hhandle : handle ∈ (r₁.after operations).declaredMethods held t)
    (hstub : handle.isStub = true) :
    (r₁.after operations).bytesOf ((r₁.after operations).nameOf t) = .ok bytes ∧
      ∃ file table first, ClassFile.parse bytes = .ok file ∧ file.methods = .ok table ∧
        Delegation.FirstFits handle.shape.name handle.shape.parameters.length table.methods
          first ∧
        Delegation.find bytes handle.shape.name handle.shape.parameters.length =
          Delegation.scan file.pool first ∧
        ∀ error, Delegation.find bytes handle.shape.name handle.shape.parameters.length =
            .error error →
          Delegation.ScanFailure file.pool first error ∧
            (error = .noDelegation handle.shape.name ∨ error.IsUnreadable) := by
  have hmade := madeFrom_after hreachable hdefine hcurrent hkept
  obtain ⟨file, table, -, hfile, htable, -⟩ := defineClassFile_eq_ok hreachable.sound hdefine
  obtain ⟨m, hentry⟩ := hmade.exists_entry hfile htable hhandle
  obtain ⟨first, hfirst⟩ := exists_firstFits_of_isStub hmade hfile htable hentry hstub
  have hfind := find_eq_scan hmade hfile htable hentry hfirst
  refine ⟨hmade.bytes, file, table, first, hfile, htable, hfirst, hfind, fun error herror => ?_⟩
  rw [hfind] at herror
  have hfailure := Delegation.scanFailure_of_scan herror
  obtain ⟨-, -, -, hfits, -⟩ := hfirst
  rw [← hfits.name_eq]
  exact ⟨hfailure, hfailure.cause⟩

theorem stub_found_of_overloaded :
    ∃ (t : TypeId) (r : Registry) (held : List TypeId) (handle : Method TypeId),
      (initial.Reachable ∧ defineClassFile overloaded initial = .ok t r ∧
        (r.after []).get? ((r.after []).nameOf t) = some t ∧
        (∀ other, .registerBytes (r.nameOf t) other ∈ ([] : List Operation) →
          other = overloaded) ∧
        handle ∈ (r.after []).declaredMethods held t ∧ handle.isStub = true) ∧
      (r.after []).bytesOf ((r.after []).nameOf t) = .ok overloaded ∧
      ∃ (file : ClassFile) (table : MethodTable) (first : MethodEntry),
        ClassFile.parse overloaded = .ok file ∧ file.methods = .ok table ∧
        Delegation.FirstFits handle.shape.name handle.shape.parameters.length table.methods
          first := by
  obtain ⟨t, r, hdefine, -⟩ := overloaded_defined
  obtain ⟨file, table, hfile, htable, hmethods, -⟩ := overloaded_parsed
  have hmade := madeFrom_of_define .refl hdefine
  have husable : stubOfLong ∈ usable table := by
    rw [usable, hmethods]
    decide
  obtain ⟨handle, hentry⟩ := hmade.exists_handle hfile htable husable
  obtain ⟨-, hdeclared, -⟩ := hentry.declaredAs hmade hfile htable
  obtain ⟨d, declaration, hd, hzip, heq⟩ := hentry
  have hlisted := isListed_of_held hmade.sound.toCoherent declaration
  have hhandle := (mem_declaredMethods_iff hd).mpr
    ⟨declaration, (List.of_mem_zip hzip).2, hlisted, heq⟩
  have hstub : handle.isStub = true := by
    change handle.flags.isStub = true
    rw [hdeclared.flags]
    decide
  have hkept : ∀ other, .registerBytes (r.nameOf t) other ∈ ([] : List Operation) →
      other = overloaded := by
    intro other hother
    cases hother
  have hcurrent : (r.after []).get? ((r.after []).nameOf t) = some t := hmade.current
  obtain ⟨hbytes, file, table, first, hfile, htable, hfirst, -⟩ :=
    stub_found .refl hdefine hcurrent hkept hhandle hstub
  exact ⟨t, r, _, handle, ⟨.refl, hdefine, hcurrent, hkept, hhandle, hstub⟩, hbytes, file,
    table, first, hfile, htable, hfirst⟩

end Resolver

end Forwarding
