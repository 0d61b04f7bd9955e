import Forwarding.Proofs.ClassFile.RoundTrip

/-!
# What readable methods consist of

Bytes that are read as a method are those that are written for one.  So a method that is
read can be taken apart into its names and its attributes, also those that are passed over.
-/

namespace Forwarding.ClassFile

open Reader

variable {pool : ConstantPool} {slots : List Constant} {name descriptor : String}
  {start count : Nat} {bytes : List UInt8} {code result : Option CodeAttribute}
  {entry m : MethodEntry} {c : Cursor}

/-! ## Names -/

theorem ConstantPool.mk_toArray_toList (pool : ConstantPool) :
    (⟨pool.slots.toList.toArray⟩ : ConstantPool) = pool := by
  rw [Array.toArray_toList]

theorem reads_name_iff {text : String} :
    (u16 >>= lookupUtf8 pool).Reads start bytes text ↔
      ∃ index : UInt16, bytes = toBytes 2 index.toNat ∧
        pool.slots.toList[index.toNat]? = some (.utf8 text) := by
  have hlookup {index : UInt16} : Error.ofMalformation (pool.utf8 index) = .ok text ↔
      pool.slots.toList[index.toNat]? = some (.utf8 text) := by
    rw [Error.ofMalformation, except_mapError_eq_ok, ConstantPool.utf8_eq_ok_iff,
      ConstantPool.Holds, Array.getElem?_toList]
    exact and_iff_left Constant.noConfusion
  simp only [reads_u16_bind_iff, lookupUtf8, reads_ofExcept_iff, hlookup]
  constructor
  · rintro ⟨index, _, rfl, rfl, hslot⟩
    exact ⟨index, List.append_nil _, hslot⟩
  · rintro ⟨index, rfl, hslot⟩
    exact ⟨index, [], (List.append_nil _).symm, rfl, hslot⟩

/-! ## Attributes -/

theorem exists_body_of_parseCode {body : List UInt8} {found : CodeAttribute}
    (hlength : body.length < 2 ^ 32) (hparse : parseCode body = .ok found) :
    ∃ b : Body, b.write = body ∧ b.toCodeAttribute = found := by
  obtain ⟨c', hrun⟩ : ∃ c', (readCode body.length).run (.start body.toArray) =
      (.ok found, c') := ⟨_, Prod.ext hparse rfl⟩
  obtain ⟨read, hpasses, hreads⟩ := run_eq_ok_iff.mp hrun
  have hbody : body = read ++ c'.rest := hpasses.rest
  unfold readCode at hreads
  obtain ⟨maxStack, _, rfl, hlocals⟩ := reads_u16_bind_iff.mp hreads
  obtain ⟨maxLocals, _, rfl, hlengths⟩ := reads_u16_bind_iff.mp hlocals
  obtain ⟨length, code, rfl, hcodes⟩ := reads_u32_bind_iff.mp hlengths
  split at hcodes
  next => cases reads_fail_iff.mp hcodes
  next hnonzero =>
    split at hcodes
    next => cases reads_fail_iff.mp hcodes
    next =>
      obtain ⟨_, hcode, rfl⟩ := reads_bind_pure_iff.mp hcodes
      obtain ⟨rfl, hcount⟩ := reads_bytes_iff.mp hcode
      have hne : code ≠ [] := by
        rintro rfl
        exact hnonzero (UInt32.toNat_inj.mp hcount.symm)
      have hfits : 8 + code.length + c'.rest.length < 2 ^ 32 := by
        rw [hbody] at hlength
        simp only [List.length_append, length_toBytes] at hlength
        omega
      refine ⟨⟨⟨maxStack, maxLocals, code⟩, c'.rest, hne, hfits⟩, ?_, rfl⟩
      rw [hbody, Body.write, ← hcount]
      simp only [List.append_assoc]

/-- What an attribute adds tells what it is. -/
theorem exists_attribute_of_addAttribute {index : UInt16} {text : String} {body : List UInt8}
    (hslot : slots[index.toNat]? = some (.utf8 text)) (hlength : body.length < 2 ^ 32)
    (hadd : addAttribute name descriptor code text body = .ok result) :
    ∃ a : MethodAttribute, a.Named slots ∧
      a.toAttribute.write = toBytes 2 index.toNat ++ (toBytes 4 body.length ++ body) ∧
      (a.code? = none ∨ code = none) ∧ result = a.code?.or code := by
  unfold addAttribute at hadd
  split at hadd
  next hname =>
    split at hadd
    next => cases hadd
    next hnone =>
      obtain ⟨found, hparse, rfl⟩ := except_map_eq_ok.mp hadd
      obtain ⟨b, rfl, rfl⟩ := exists_body_of_parseCode hlength hparse
      rw [Option.not_isSome_iff_eq_none] at hnone
      rw [hname] at hslot
      refine ⟨.code index b, hslot, rfl, Or.inr hnone, ?_⟩
      rw [hnone]
      rfl
  next hname =>
    cases hadd
    exact ⟨.other ⟨index, body, hlength⟩, ⟨text, hslot, hname⟩, rfl, Or.inl rfl, rfl⟩

theorem exists_attributes_of_reads
    (hreads : (readAttributes pool name descriptor count code).Reads start bytes result) :
    ∃ attributes : List MethodAttribute, attributes.length = count ∧
      (∀ a ∈ attributes, a.Named pool.slots.toList) ∧
      code.toList.length + attributes.countP (·.code?.isSome) ≤ 1 ∧
      bytes = attributes.flatMap (·.toAttribute.write) ∧
      result = code.or (attributes.findSome? MethodAttribute.code?) := by
  -- As in writing, the bound and the result account for code that was found before.
  induction count generalizing start bytes code with
  | zero =>
      obtain ⟨rfl, rfl⟩ := reads_pure_iff.mp hreads
      refine ⟨[], rfl, by simp, ?_, rfl, ?_⟩
      · cases result <;> simp
      · rw [List.findSome?_nil, Option.or_none]
  | succ count ih =>
      unfold readAttributes at hreads
      obtain ⟨_, _, text, rfl, hname, hlengths⟩ := reads_bind_iff.mp hreads
      obtain ⟨index, rfl, hslot⟩ := reads_name_iff.mp hname
      obtain ⟨length, _, rfl, hbodies⟩ := reads_u32_bind_iff.mp hlengths
      obtain ⟨body, _, _, rfl, hbody, hadds⟩ := reads_bind_iff.mp hbodies
      obtain ⟨rfl, hlength⟩ := reads_bytes_iff.mp hbody
      obtain ⟨_, others, added, rfl, hadded, hothers⟩ := reads_bind_iff.mp hadds
      obtain ⟨rfl, hadd⟩ := reads_ofExcept_iff.mp hadded
      have hlt : body.length < 2 ^ 32 := hlength ▸ length.toNat_lt
      obtain ⟨a, hnamed, hwrite, hfirst, rfl⟩ :=
        exists_attribute_of_addAttribute hslot hlt hadd
      obtain ⟨rest, rfl, hall, hcode, rfl, rfl⟩ := ih hothers
      refine ⟨a :: rest, rfl, List.forall_mem_cons.mpr ⟨hnamed, hall⟩, ?_, ?_, ?_⟩
      · exact countP_code_cons_le_iff.mpr ⟨hfirst, hcode⟩
      · rw [List.flatMap_cons, hwrite, hlength]
        simp only [List.append_assoc, List.nil_append]
      · exact (or_findSome?_code_cons hfirst).symm

/-! ## Methods -/

/-- What is read as a method is written for one that shows as it. -/
theorem exists_write_of_reads (hreads : (readMethod pool).Reads start bytes entry) :
    ∃ info : MethodInfo, info.Named pool.slots.toList ∧ info.Shows pool.slots.toList entry ∧
      info.write = bytes := by
  unfold readMethod at hreads
  obtain ⟨_, _, flags, rfl, hflags, hnames⟩ := reads_bind_iff.mp hreads
  obtain ⟨raw, hraw, rfl⟩ := reads_map_iff.mp hflags
  rw [reads_u16_iff] at hraw
  obtain ⟨_, _, name, rfl, hname, hdescriptors⟩ := reads_bind_iff.mp hnames
  obtain ⟨nameIndex, rfl, hnameSlot⟩ := reads_name_iff.mp hname
  obtain ⟨_, _, descriptor, rfl, hdescriptor, hcounts⟩ := reads_bind_iff.mp hdescriptors
  obtain ⟨descriptorIndex, rfl, hdescriptorSlot⟩ := reads_name_iff.mp hdescriptor
  obtain ⟨attributeCount, _, rfl, hcodes⟩ := reads_u16_bind_iff.mp hcounts
  obtain ⟨code, hattributes, rfl⟩ := reads_bind_pure_iff.mp hcodes
  obtain ⟨attributes, hlength, hnamed, hcode, rfl, rfl⟩ := exists_attributes_of_reads hattributes
  rw [Option.none_or]
  have hcount : attributes.length < 2 ^ 16 := hlength ▸ attributeCount.toNat_lt
  have hone : attributes.countP (·.code?.isSome) ≤ 1 := by simpa using hcode
  refine ⟨⟨raw, nameIndex, descriptorIndex, attributes, hcount, hone⟩,
    ⟨⟨name, hnameSlot⟩, ⟨descriptor, hdescriptorSlot⟩, hnamed⟩,
    ⟨rfl, hnameSlot, hdescriptorSlot, rfl⟩, ?_⟩
  simp only [MethodInfo.write, hlength, hraw]

theorem takes_readMethod_of_shows {info : MethodInfo} (hnamed : info.Named pool.slots.toList)
    (hshows : info.Shows pool.slots.toList entry) : (readMethod pool).Takes info.write entry := by
  obtain ⟨found, hfound, htakes⟩ := takes_readMethod hnamed
  rwa [hfound.unique hshows, ConstantPool.mk_toArray_toList] at htakes

/-- One method after the other is read until none is left or one cannot be read. -/
theorem readMethods_eq_cons_iff {entries : List MethodEntry} {failure : Option Error} :
    readMethods pool count c = (entry :: entries, failure) ↔
      ∃ more c', count = more + 1 ∧ (readMethod pool).run c = (.ok entry, c') ∧
        readMethods pool more c' = (entries, failure) := by
  cases count with
  | zero => simp [readMethods]
  | succ count =>
      rw [readMethods]
      cases hrun : (readMethod pool).run c with
      | mk outcome c' =>
          cases outcome with
          | ok found => simp [Prod.ext_iff, and_assoc]
          | error error => simp

/-- What the methods in front of one that is read are written for. -/
theorem exists_infos_of_readMethods {earlier later : List MethodEntry} {failure : Option Error}
    (hread : readMethods pool count c = (earlier ++ m :: later, failure)) :
    ∃ (infos : List MethodInfo) (c₁ c₂ : Cursor), infos.length < count ∧
      (∀ info ∈ infos, info.Named pool.slots.toList) ∧
      List.Forall₂ (MethodInfo.Shows pool.slots.toList) infos earlier ∧
      c.Passes (infos.flatMap MethodInfo.write) c₁ ∧ (readMethod pool).run c₁ = (.ok m, c₂) := by
  induction earlier generalizing count c with
  | nil =>
      obtain ⟨more, c₂, rfl, hrun, -⟩ := readMethods_eq_cons_iff.mp hread
      exact ⟨[], c, c₂, Nat.succ_pos more, by simp, .nil, Cursor.passes_nil_iff.mpr rfl, hrun⟩
  | cons entry rest ih =>
      obtain ⟨more, c', rfl, hrun, hothers⟩ := readMethods_eq_cons_iff.mp hread
      obtain ⟨bytes, hpasses, hreads⟩ := run_eq_ok_iff.mp hrun
      obtain ⟨info, hnamed, hshows, rfl⟩ := exists_write_of_reads hreads
      obtain ⟨infos, c₁, c₂, hlength, hall, hentries, hbetween, hlast⟩ := ih hothers
      refine ⟨info :: infos, c₁, c₂, Nat.succ_lt_succ hlength,
        List.forall_mem_cons.mpr ⟨hnamed, hall⟩, .cons hshows hentries, ?_, hlast⟩
      rw [List.flatMap_cons]
      exact hpasses.trans hbetween

/-- Methods that are written in front of another one are read in front of it. -/
theorem exists_readMethods_of_infos {infos : List MethodInfo} {info : MethodInfo}
    {rest : List UInt8} (hinfos : ∀ other ∈ infos, other.Named pool.slots.toList)
    (hnamed : info.Named pool.slots.toList) (hshows : info.Shows pool.slots.toList entry)
    (hlength : infos.length < count)
    (hrest : c.rest = infos.flatMap MethodInfo.write ++ (info.write ++ rest)) :
    ∃ earlier later failure, readMethods pool count c = (earlier ++ entry :: later, failure) ∧
      List.Forall₂ (MethodInfo.Shows pool.slots.toList) infos earlier := by
  obtain ⟨more, rfl⟩ := Nat.exists_eq_add_of_lt hlength
  obtain ⟨earlier, c₁, hall, hlast, hread⟩ := readMethods_append (more + 1) hinfos hrest
  rw [ConstantPool.mk_toArray_toList] at hread
  have htakes := takes_readMethod_of_shows hnamed hshows
  obtain ⟨c₂, hrun, -⟩ := (htakes c₁.position).run_eq hlast
  rw [readMethods_eq_cons_iff.mpr ⟨more, c₂, rfl, hrun, rfl⟩] at hread
  exact ⟨earlier, _, _, hread, hall⟩

/-! ## Class files -/

theorem exists_reads_of_parse {data : Array UInt8} {file : ClassFile}
    (hparse : parse data = .ok file) :
    ∃ headerBytes, readHeader.Reads 0 headerBytes file.toHeader ∧
      (Cursor.start data).Passes headerBytes file.methodTable := by
  unfold parse at hparse
  split at hparse
  next header methodTable hrun =>
    cases hparse
    obtain ⟨headerBytes, hpasses, hreads⟩ := run_eq_ok_iff.mp hrun
    exact ⟨headerBytes, hreads, hpasses⟩
  next => cases hparse

theorem exists_readMethods_of_methods {file : ClassFile} {table : MethodTable}
    (htable : file.methods = .ok table) :
    ∃ (total : UInt16) (c : Cursor), file.methodTable.Passes (toBytes 2 total.toNat) c ∧
      readMethods file.pool total.toNat c = (table.methods, table.failure) := by
  unfold methods at htable
  split at htable
  next total c hrun =>
    cases htable
    obtain ⟨countBytes, hpasses, hreads⟩ := run_eq_ok_iff.mp hrun
    rw [reads_u16_iff.mp hreads] at hpasses
    exact ⟨total, c, hpasses, rfl⟩
  next => cases htable

end Forwarding.ClassFile
