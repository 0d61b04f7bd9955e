import Forwarding.Proofs.ClassFile.Layout
import Forwarding.Proofs.Delegation.EagerSearch

/-!
# What a search leaves unread

A search that finds a call answers without the code behind the call, without what follows
the code in its attribute, and without anything behind the stub.  The former may be overwritten
and the latter replaced or cut off, and the search finds the same call.
-/

namespace Forwarding.Delegation

open ClassFile Bytecode Reader

variable {name : String} {count : Nat}

/-! ## Up to the stub -/

/-- A class file up to a stub: the header, the number of methods, and the methods that a
search for the stub passes over. -/
structure Approach (name : String) (count : Nat) where
  header : Header
  headerBytes : List UInt8
  total : UInt16
  earlier : List MethodInfo
  reads : readHeader.Reads 0 headerBytes header
  earlier_lt : earlier.length < total.toNat
  named : ∀ info ∈ earlier, info.Named header.pool.slots.toList
  passed : ∀ info ∈ earlier, ∀ entry, info.Shows header.pool.slots.toList entry →
    isCandidate name count entry = .ok false

namespace Approach

def slots (a : Approach name count) : List Constant :=
  a.header.pool.slots.toList

def write (a : Approach name count) : List UInt8 :=
  a.headerBytes ++ (toBytes 2 a.total.toNat ++ a.earlier.flatMap MethodInfo.write)

/-- A search goes past the earlier methods and scans the stub, whatever follows it. -/
theorem find_eq_scan (a : Approach name count) {info : MethodInfo} {entry : MethodEntry}
    (hnamed : info.Named a.slots) (hshows : info.Shows a.slots entry)
    (hfits : Fits name count entry) (behind : List UInt8) :
    find (a.write ++ (info.write ++ behind)).toArray name count = scan a.header.pool entry := by
  have hstart : (Cursor.start (a.write ++ (info.write ++ behind)).toArray).rest =
      a.headerBytes ++ (toBytes 2 a.total.toNat ++
        (a.earlier.flatMap MethodInfo.write ++ (info.write ++ behind))) := by
    simp [write]
  obtain ⟨table, hheader, -, htable⟩ := Reads.run_eq a.reads hstart
  obtain ⟨c, htotal, -, hmethods⟩ := (takes_u16 a.total table.position).run_eq htable
  obtain ⟨entries, later, failure, hread, hentries⟩ :=
    exists_readMethods_of_infos a.named hnamed hshows a.earlier_lt hmethods
  have hparse : ClassFile.parse (a.write ++ (info.write ++ behind)).toArray =
      .ok { a.header with methodTable := table } := by
    rw [ClassFile.parse, hheader]
  have htable : ClassFile.methods { a.header with methodTable := table } =
      .ok ⟨a.total.toNat, entries ++ entry :: later, failure⟩ := by
    rw [ClassFile.methods, htotal]
    dsimp only
    rw [hread]
  have hpassed : ∀ other ∈ entries, isCandidate name count other = .ok false := by
    intro other hother
    obtain ⟨i, hi, rfl⟩ := List.mem_iff_getElem.mp hother
    have hlt : i < a.earlier.length := hentries.length_eq ▸ hi
    exact a.passed _ (List.getElem_mem hlt) _ (hentries.get hlt hi)
  rw [find_eq_findStub hparse htable,
    findStub_eq_ok_iff.mpr ⟨entries, later, rfl, hfits, hpassed⟩]
  rfl

end Approach

/-! ## The stub without its code -/

/-- A stub for which a search looks, except for the body of its code. -/
structure Shell (slots : List Constant) (name : String) (count : Nat) where
  flags : UInt16
  nameIndex : UInt16
  descriptorIndex : UInt16
  descriptor : String
  before : List MethodAttribute
  codeName : UInt16
  after : List MethodAttribute
  named : slots[nameIndex.toNat]? = some (.utf8 name)
  described : slots[descriptorIndex.toNat]? = some (.utf8 descriptor)
  codeNamed : slots[codeName.toNat]? = some (.utf8 codeAttributeName)
  others : ∀ a ∈ before ++ after, a.Named slots ∧ a.code? = none
  attributes_lt : before.length + (after.length + 1) < 2 ^ 16
  isStub : (MethodFlags.ofRaw flags).isStub = true
  parameters : Descriptor.parameterCount descriptor = .ok count

namespace Shell

variable {slots : List Constant}

def attributes (shell : Shell slots name count) (body : Body) : List MethodAttribute :=
  shell.before ++ .code shell.codeName body :: shell.after

def info (shell : Shell slots name count) (body : Body) : MethodInfo where
  flags := shell.flags
  name := shell.nameIndex
  descriptor := shell.descriptorIndex
  attributes := shell.attributes body
  attributes_lt := by
    rw [attributes, List.length_append, List.length_cons]
    exact shell.attributes_lt
  one_code := by
    have hothers : (shell.before ++ shell.after).countP (·.code?.isSome) = 0 := by
      rw [List.countP_eq_zero]
      intro a ha
      rw [(shell.others a ha).2]
      exact Bool.false_ne_true
    rw [List.countP_append] at hothers
    rw [attributes, List.countP_append, List.countP_cons_of_pos rfl]
    omega

def entry (shell : Shell slots name count) (body : Body) : MethodEntry where
  flags := .ofRaw shell.flags
  name := name
  descriptor := shell.descriptor
  code := some body.toCodeAttribute

theorem named_info (shell : Shell slots name count) (body : Body) :
    (shell.info body).Named slots where
  name := ⟨name, shell.named⟩
  descriptor := ⟨shell.descriptor, shell.described⟩
  attributes := by
    intro a ha
    cases List.mem_append.mp ha with
    | inl hbefore => exact (shell.others a (List.mem_append_left _ hbefore)).1
    | inr hrest =>
        cases List.mem_cons.mp hrest with
        | inl hcode =>
            rw [hcode]
            exact shell.codeNamed
        | inr hafter => exact (shell.others a (List.mem_append_right _ hafter)).1

theorem shows_info (shell : Shell slots name count) (body : Body) :
    (shell.info body).Shows slots (shell.entry body) where
  flags := rfl
  name := shell.named
  descriptor := shell.described
  code := by
    have hbefore : shell.before.findSome? MethodAttribute.code? = none :=
      List.findSome?_eq_none_iff.mpr fun a ha =>
        (shell.others a (List.mem_append_left _ ha)).2
    change _ = (shell.before ++ .code shell.codeName body :: shell.after).findSome? _
    rw [List.findSome?_append, hbefore]
    rfl

theorem fits_entry (shell : Shell slots name count) (body : Body) :
    Fits name count (shell.entry body) :=
  ⟨shell.isStub, rfl, shell.parameters⟩

/-- The bytes in front of the code. -/
def head (shell : Shell slots name count) (body : Body) : List UInt8 :=
  toBytes 2 shell.flags.toNat ++ (toBytes 2 shell.nameIndex.toNat ++
    (toBytes 2 shell.descriptorIndex.toNat ++ (toBytes 2 (shell.attributes body).length ++
    (shell.before.flatMap (·.toAttribute.write) ++ (toBytes 2 shell.codeName.toNat ++
    (toBytes 4 body.write.length ++ (toBytes 2 body.maxStack.toNat ++
    (toBytes 2 body.maxLocals.toNat ++ toBytes 4 body.code.length))))))))

def tail (shell : Shell slots name count) : List UInt8 :=
  shell.after.flatMap (·.toAttribute.write)

theorem write_info (shell : Shell slots name count) (body : Body) :
    (shell.info body).write =
      shell.head body ++ (body.code ++ (body.rest ++ shell.tail)) := by
  simp [MethodInfo.write, info, head, tail, attributes, MethodAttribute.toAttribute,
    Attribute.write, Body.write]

end Shell

/-- A method that is read and fits is a shell around its code. -/
theorem exists_shell {slots : List Constant} {info : MethodInfo} {entry : MethodEntry}
    {code : CodeAttribute} (hnamed : info.Named slots) (hshows : info.Shows slots entry)
    (hfits : Fits name count entry) (hcode : entry.code = some code) :
    ∃ (shell : Shell slots name count) (body : Body), shell.info body = info ∧
      body.toCodeAttribute = code := by
  rw [hshows.code, List.findSome?_eq_some_iff] at hcode
  obtain ⟨before, a, after, hattributes, ha, hbefore⟩ := hcode
  cases a with
  | other content => cases ha
  | code codeName body =>
      have hone := info.one_code
      have hlt := info.attributes_lt
      have hall := hnamed.attributes
      rw [hattributes, List.countP_append, List.countP_cons_of_pos rfl] at hone
      rw [hattributes, List.length_append, List.length_cons] at hlt
      rw [hattributes, List.forall_mem_append, List.forall_mem_cons] at hall
      have hafter : ∀ other ∈ after, other.code? = none := by
        have hnone : after.countP (·.code?.isSome) = 0 := by omega
        simpa [List.countP_eq_zero] using hnone
      refine ⟨⟨info.flags, info.name, info.descriptor, entry.descriptor, before, codeName, after,
        hfits.name_eq ▸ hshows.name, hshows.descriptor, hall.2.1, ?_, hlt,
        hshows.flags ▸ hfits.isStub, hfits.parameters⟩, body, ?_, Option.some.inj ha⟩
      · rw [List.forall_mem_append]
        exact ⟨fun other hother => ⟨hall.1 other hother, hbefore other hother⟩,
          fun other hother => ⟨hall.2.2 other hother, hafter other hother⟩⟩
      · cases info
        cases hattributes
        rfl

/-! ## Where a search ends -/

/-- A class file up to the end of a stub, cut behind the first call in its code. -/
structure Site (name : String) (count : Nat) extends Approach name count where
  shell : Shell toApproach.slots name count
  body : Body
  called : List UInt8
  skipped : List UInt8
  code_eq : body.code = called ++ skipped
  endsInCall : EndsInCall called

namespace Site

/-- The bytes up to the end of the call. -/
def read (site : Site name count) : List UInt8 :=
  site.write ++ (site.shell.head site.body ++ site.called)

/-- The code behind the call and what follows the code in its attribute. -/
def unread (site : Site name count) : List UInt8 :=
  site.skipped ++ site.body.rest

/-- The attributes behind the code. -/
def tail (site : Site name count) : List UInt8 :=
  site.shell.tail

theorem bytes_eq (site : Site name count) (behind : List UInt8) :
    site.read ++ (site.unread ++ (site.tail ++ behind)) =
      site.write ++ ((site.shell.info site.body).write ++ behind) := by
  rw [Shell.write_info, site.code_eq]
  simp only [read, unread, tail, List.append_assoc]

theorem find_eq_scan (site : Site name count) (behind : List UInt8) :
    find (site.read ++ (site.unread ++ (site.tail ++ behind))).toArray name count =
      scan site.header.pool (site.shell.entry site.body) := by
  rw [site.bytes_eq]
  exact site.toApproach.find_eq_scan (site.shell.named_info _) (site.shell.shows_info _)
    (site.shell.fits_entry _) behind

section

variable (site : Site name count) (unread : List UInt8)
  (hlength : unread.length = site.unread.length)

include hlength

theorem length_overwritten :
    (site.called ++ unread.take site.skipped.length).length = site.body.code.length ∧
      (unread.drop site.skipped.length).length = site.body.rest.length := by
  rw [Site.unread, List.length_append] at hlength
  rw [site.code_eq, List.length_append, List.length_append, List.length_take, List.length_drop]
  omega

/-- A body with other bytes behind the call. -/
def overwrittenBody : Body where
  maxStack := site.body.maxStack
  maxLocals := site.body.maxLocals
  code := site.called ++ unread.take site.skipped.length
  rest := unread.drop site.skipped.length
  code_ne_nil := by
    apply List.ne_nil_of_length_pos
    rw [(site.length_overwritten unread hlength).1]
    exact List.length_pos_of_ne_nil site.body.code_ne_nil
  body_lt := by
    rw [(site.length_overwritten unread hlength).1, (site.length_overwritten unread hlength).2]
    exact site.body.body_lt

/-- A site with other bytes behind the call. -/
def overwrite : Site name count where
  toApproach := site.toApproach
  shell := site.shell
  body := site.overwrittenBody unread hlength
  called := site.called
  skipped := unread.take site.skipped.length
  code_eq := rfl
  endsInCall := site.endsInCall

theorem read_overwrite : (site.overwrite unread hlength).read = site.read := by
  obtain ⟨hcode, hrest⟩ := site.length_overwritten unread hlength
  have hhead : site.shell.head (site.overwrittenBody unread hlength) =
      site.shell.head site.body := by
    simp only [Shell.head, Shell.attributes, overwrittenBody, Body.length_write,
      List.length_append, List.length_cons] at hcode ⊢
    rw [hcode, hrest]
  change site.write ++ (site.shell.head (site.overwrittenBody unread hlength) ++ site.called) = _
  rw [hhead, Site.read]

theorem unread_overwrite : (site.overwrite unread hlength).unread = unread :=
  List.take_append_drop ..

end

/-- A search gives the same with other bytes behind the call and behind the stub. -/
theorem find_overwritten (site : Site name count) {behind : List UInt8} {d : Delegation}
    (hfind : find (site.read ++ (site.unread ++ (site.tail ++ behind))).toArray name count =
      .ok d) (unread behind' : List UInt8) (hlength : unread.length = site.unread.length) :
    find (site.read ++ (unread ++ (site.tail ++ behind'))).toArray name count = .ok d := by
  -- Both scans end with the same call, and what a call gives depends on its reference only.
  obtain ⟨call, index, hscan⟩ := scan_of_endsInCall site.endsInCall
  have hother := (site.overwrite unread hlength).find_eq_scan behind'
  rw [read_overwrite, unread_overwrite, hscan _ _ _ _ rfl (overwrite ..).code_eq] at hother
  rw [site.find_eq_scan, hscan _ _ _ _ rfl site.code_eq, ofCall_eq_ok_iff] at hfind
  exact hother.trans (ofCall_eq_ok_iff.mpr hfind)

end Site

/-- A search that succeeds comes to a stub that fits, past methods that are no candidates. -/
theorem exists_approach {bytes : Array UInt8} {file : ClassFile} {table : MethodTable}
    {stub : MethodEntry} (hfile : ClassFile.parse bytes = .ok file)
    (htable : file.methods = .ok table)
    (hstub : findStub name count table.failure table.methods = .ok stub) :
    ∃ (a : Approach name count) (info : MethodInfo) (behind : List UInt8),
      info.Named a.slots ∧ info.Shows a.slots stub ∧
      bytes.toList = a.write ++ (info.write ++ behind) := by
  obtain ⟨headerBytes, hheader, hfront⟩ := exists_reads_of_parse hfile
  obtain ⟨total, c, hcount, hmethods⟩ := exists_readMethods_of_methods htable
  obtain ⟨earlier, later, hall, -, hpassed⟩ := findStub_eq_ok_iff.mp hstub
  rw [hall] at hmethods
  obtain ⟨infos, c₁, c₂, hlt, hnamed, hshows, hbetween, hrun⟩ :=
    exists_infos_of_readMethods hmethods
  obtain ⟨stubBytes, hstubBytes, hreads⟩ := run_eq_ok_iff.mp hrun
  obtain ⟨info, hstubNamed, hstubShows, rfl⟩ := exists_write_of_reads hreads
  have hpassedInfos : ∀ info ∈ infos, ∀ entry, info.Shows file.pool.slots.toList entry →
      isCandidate name count entry = .ok false := by
    intro info hinfo entry hentry
    obtain ⟨i, hi, rfl⟩ := List.mem_iff_getElem.mp hinfo
    have hentries : i < earlier.length := hshows.length_eq ▸ hi
    rw [hentry.unique (hshows.get hi hentries)]
    exact hpassed _ (List.getElem_mem hentries)
  refine ⟨⟨file.toHeader, headerBytes, total, infos, hheader, hlt, hnamed, hpassedInfos⟩, info,
    c₂.rest, hstubNamed, hstubShows, ?_⟩
  rw [Approach.write, List.append_assoc, List.append_assoc, ← hstubBytes.rest, ← hbetween.rest,
    ← hcount.rest, ← hfront.rest, Cursor.rest_start]

theorem code_of_scan {pool : ConstantPool} {stub : MethodEntry} {d : Delegation}
    (hscan : scan pool stub = .ok d) : ∃ code, stub.code = some code := by
  cases hcode : stub.code with
  | none =>
      rw [scan, hcode] at hscan
      cases hscan
  | some code => exact ⟨code, rfl⟩

theorem exists_site {bytes : Array UInt8} {d : Delegation}
    (hfind : find bytes name count = .ok d) :
    ∃ (site : Site name count) (behind : List UInt8),
      bytes.toList = site.read ++ (site.unread ++ (site.tail ++ behind)) := by
  obtain ⟨file, hfile, hfind⟩ := except_bind_eq_ok.mp hfind
  obtain ⟨table, htable, hfind⟩ := except_bind_eq_ok.mp hfind
  obtain ⟨stub, hstub, hscan⟩ := except_bind_eq_ok.mp hfind
  obtain ⟨a, info, behind, hnamed, hshows, hbytes⟩ := exists_approach hfile htable hstub
  obtain ⟨_, _, _, hfits, _⟩ := findStub_eq_ok_iff.mp hstub
  obtain ⟨code, hcode⟩ := code_of_scan hscan
  obtain ⟨shell, body, rfl, rfl⟩ := exists_shell hnamed hshows hfits hcode
  obtain ⟨called, skipped, hbody, hends⟩ := exists_endsInCall hcode hscan
  refine ⟨⟨a, shell, body, called, skipped, hbody, hends⟩, behind, ?_⟩
  rw [Site.bytes_eq, hbytes]

/-- A search that finds a call gives the same for all class files that agree up to the end of
the call and in the attributes behind its code, whatever else they hold or lack. -/
theorem find_leaves_unread {bytes : Array UInt8} {d : Delegation}
    (hfind : find bytes name count = .ok d) :
    (∃ (site : Site name count) (behind : List UInt8),
      bytes.toList = site.read ++ (site.unread ++ (site.tail ++ behind))) ∧
    ∀ (site : Site name count) (behind : List UInt8),
      bytes.toList = site.read ++ (site.unread ++ (site.tail ++ behind)) →
      ∀ unread behind' : List UInt8, unread.length = site.unread.length →
        find (site.read ++ (unread ++ (site.tail ++ behind'))).toArray name count = .ok d := by
  refine ⟨exists_site hfind, fun site behind hbytes unread behind' hlength => ?_⟩
  have hsite : (site.read ++ (site.unread ++ (site.tail ++ behind))).toArray = bytes := by
    rw [← hbytes, Array.toArray_toList]
  rw [← hsite] at hfind
  exact site.find_overwritten hfind unread behind' hlength

/-! ## A stub with a switch -/

def switchHeader : Header where
  minorVersion := 0
  majorVersion := 52
  pool := ⟨#[.unusable, .utf8 "S", .classRef 1, .utf8 "java/lang/Object", .classRef 3,
    .utf8 "run", .utf8 "(I)V", .utf8 "Code", .utf8 "H", .classRef 8, .utf8 "h",
    .nameAndType 10 6, .interfaceMethodRef 9 11]⟩
  accessFlags := 0x21
  thisClass := 2
  superClass := 4
  interfaces := []

theorem switchHeader_read : readHeader.Reads 0 (switchFront.take 90) switchHeader := by
  have hheader : (readHeader.run (.start (switchFront.take 90).toArray)).1.toOption =
      some switchHeader := by
    decide +kernel
  have hend : (readHeader.run (.start (switchFront.take 90).toArray)).2.rest = [] := by
    decide +kernel
  rw [except_toOption_eq_some] at hheader
  exact reads_of_run_start hheader hend

def switchShell : Shell switchHeader.pool.slots.toList "run" 1 where
  flags := 0x1041
  nameIndex := 5
  descriptorIndex := 6
  descriptor := "(I)V"
  before := [.other ⟨10, [0xEE], by decide⟩]
  codeName := 7
  after := []
  named := rfl
  described := rfl
  codeNamed := rfl
  others := by
    rw [List.append_nil, List.forall_mem_singleton]
    exact ⟨⟨"h", rfl, by decide⟩, rfl⟩
  attributes_lt := by decide
  isStub := by decide
  parameters := by decide

theorem switchCalled_endsInCall : EndsInCall switchCalled := by
  have hcomputed :
      ((decode switchCalled.toArray).toOption.bind fun instructions =>
        instructions.getLast?.map fun call =>
          (instructions.dropLast.any Instruction.isMethodCall, call.isMethodCall)) =
        some (false, true) := by
    decide +kernel
  obtain ⟨instructions, hdecode, hcomputed⟩ := Option.bind_eq_some_iff.mp hcomputed
  obtain ⟨call, hlast, hcomputed⟩ := Option.map_eq_some_iff.mp hcomputed
  rw [except_toOption_eq_some] at hdecode
  rw [Prod.mk.injEq, List.any_eq_false] at hcomputed
  refine ⟨instructions.dropLast, call, ?_, fun i hi => ?_, hcomputed.2⟩
  · rw [List.dropLast_append_getLast? call hlast]
    exact hdecode
  · simpa using hcomputed.1 i hi

def switchSite : Site "run" 1 where
  header := switchHeader
  headerBytes := switchFront.take 90
  total := 2
  earlier := [⟨1, 5, 6, [], by decide, by decide⟩]
  reads := switchHeader_read
  earlier_lt := by decide
  named := by
    rw [List.forall_mem_singleton]
    exact ⟨⟨"run", rfl⟩, ⟨"(I)V", rfl⟩, by simp⟩
  passed := by
    rw [List.forall_mem_singleton]
    intro entry hshows
    have hshown : entry = ⟨⟨1⟩, "run", "(I)V", none⟩ := hshows.unique ⟨rfl, rfl, rfl, rfl⟩
    rw [hshown]
    decide
  shell := switchShell
  body := ⟨⟨2, 2, switchCalled ++ [0xB1]⟩, [0, 0, 0, 0], by decide, by decide⟩
  called := switchCalled
  skipped := [0xB1]
  code_eq := rfl
  endsInCall := switchCalled_endsInCall

theorem find_leaves_unread_switch :
    find switchClass "run" 1 = .ok (toMember switchCallee 27) ∧
    find (switchFront ++ (switchHead ++ (switchCalled ++ [0xFF, 0xFF, 0xFF, 0xFF, 0xFF]))).toArray
      "run" 1 = .ok (toMember switchCallee 27) := by
  have hfind : find switchClass "run" 1 = .ok (toMember switchCallee 27) := by
    have hcomputed : (find switchClass "run" 1).toOption = some (toMember switchCallee 27) := by
      decide +kernel
    exact except_toOption_eq_some.mp hcomputed
  have hbytes : switchClass.toList =
      switchSite.read ++ (switchSite.unread ++ (switchSite.tail ++ [0, 0])) := by
    decide +kernel
  have hother := (find_leaves_unread hfind).2 switchSite [0, 0] hbytes
    [0xFF, 0xFF, 0xFF, 0xFF, 0xFF] [] rfl
  have hread : switchSite.read = switchFront ++ (switchHead ++ switchCalled) := by
    decide +kernel
  rw [hread, List.append_assoc, List.append_assoc] at hother
  exact ⟨hfind, hother⟩

end Forwarding.Delegation
