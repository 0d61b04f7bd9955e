import Forwarding.Proofs.ClassFile.References
import Forwarding.Proofs.ClassFile.Writing
import Forwarding.Proofs.Text.ModifiedUtf8
import Forwarding.Proofs.Outcome

/-!
# Written class files can be read

Whatever a class file holds, reading what is written for it gives the same header,
the same constants and the same methods, and does not depend on what follows.
-/

namespace Forwarding.ClassFile

open Reader

/-! ## Constants -/

theorem takes_readText {text : String}
    (hlength : (Text.ModifiedUtf8.encode text).length < 2 ^ 16) :
    ConstantPool.readText.Takes
      (toBytes 2 (Text.ModifiedUtf8.encode text).length ++ Text.ModifiedUtf8.encode text)
      (.utf8 text) := by
  have hdecode : Error.ofMalformation
      (Text.ModifiedUtf8.decode (Text.ModifiedUtf8.encode text)) = .ok text := by
    rw [Text.ModifiedUtf8.decode_encode]
    rfl
  unfold ConstantPool.readText
  apply takes_count16 hlength
  rw [toNat_ofNat16 hlength, ← List.append_nil (Text.ModifiedUtf8.encode text)]
  apply Takes.bind
  · rw [List.append_nil]
    exact takes_bytes _
  · exact (takes_ofExcept hdecode).bind_pure _

theorem takes_pair (make : UInt16 → UInt16 → Constant) (first second : UInt16) :
    (u16 >>= fun first => u16 >>= fun second => pure (make first second)).Takes
      (toBytes 2 first.toNat ++ toBytes 2 second.toNat) (make first second) :=
  (takes_u16 first).bind ((takes_u16 second).bind_pure _)

theorem takes_readConstant (e : Entry) (index : Nat) :
    (ConstantPool.readConstant index).Takes e.constant.write e.constant := by
  obtain ⟨constant, husable, htext⟩ := e
  unfold ConstantPool.readConstant
  cases constant with
  | unusable => exact (husable rfl).elim
  | utf8 text => exact (takes_u8 1).bind (takes_readText (htext text rfl))
  | integer value => exact (takes_u8 3).bind ((takes_i32 value).map _)
  | float bits => exact (takes_u8 4).bind ((takes_u32 bits).map _)
  | long value => exact (takes_u8 5).bind ((takes_i64 value).map _)
  | double bits => exact (takes_u8 6).bind ((takes_u64 bits).map _)
  | classRef name => exact (takes_u8 7).bind ((takes_u16 name).map _)
  | string text => exact (takes_u8 8).bind ((takes_u16 text).map _)
  | fieldRef owner signature => exact (takes_u8 9).bind (takes_pair _ owner signature)
  | methodRef owner signature => exact (takes_u8 10).bind (takes_pair _ owner signature)
  | interfaceMethodRef owner signature =>
      exact (takes_u8 11).bind (takes_pair _ owner signature)
  | nameAndType name descriptor => exact (takes_u8 12).bind (takes_pair _ name descriptor)
  | methodHandle kind reference =>
      exact (takes_u8 15).bind ((takes_u8 kind).bind ((takes_u16 reference).bind_pure _))
  | methodType descriptor => exact (takes_u8 16).bind ((takes_u16 descriptor).map _)
  | dynamic bootstrap signature =>
      exact (takes_u8 17).bind (takes_pair _ bootstrap signature)
  | invokeDynamic bootstrap signature =>
      exact (takes_u8 18).bind (takes_pair _ bootstrap signature)
  | module name => exact (takes_u8 19).bind ((takes_u16 name).map _)
  | package name => exact (takes_u8 20).bind ((takes_u16 name).map _)

theorem Entry.slots_eq_of_wide {e : Entry} (hwide : e.constant.isWide = true) :
    e.slots = [e.constant, .unusable] := by
  rw [slots, if_pos hwide]

theorem Entry.slots_eq_of_narrow {e : Entry} (hnarrow : e.constant.isWide = false) :
    e.slots = [e.constant] := by
  rw [slots, hnarrow]
  rfl

theorem eq_nil_of_slots_eq_nil {entries : List Entry}
    (hslots : (entries.flatMap Entry.slots).length = 0) : entries = [] := by
  cases entries with
  | nil => rfl
  | cons e rest =>
      have hpos : 0 < e.slots.length := by
        unfold Entry.slots
        split <;> simp
      rw [List.flatMap_cons, List.length_append] at hslots
      omega

theorem takes_readSlots {entries : List Entry} (index : Nat) (backwards : List Constant) :
    (ConstantPool.readSlots (entries.flatMap Entry.slots).length index backwards).Takes
      (entries.flatMap (·.constant.write))
      (backwards.reverse ++ entries.flatMap Entry.slots) := by
  induction entries generalizing index backwards with
  | nil =>
      rw [List.flatMap_nil, List.append_nil]
      exact takes_pure backwards.reverse
  | cons e rest ih =>
      have hconstant := takes_readConstant e index
      rw [List.flatMap_cons, List.flatMap_cons]
      cases hwide : e.constant.isWide with
      | true =>
          -- The second slot is counted, but there are no bytes for it.
          have hothers := ih (index + 2) (.unusable :: e.constant :: backwards)
          have hlength : (e.slots ++ rest.flatMap Entry.slots).length =
              (rest.flatMap Entry.slots).length + 2 := by
            rw [Entry.slots_eq_of_wide hwide, List.length_append]
            exact Nat.add_comm 2 _
          rw [hlength, Entry.slots_eq_of_wide hwide, ConstantPool.readSlots]
          apply hconstant.bind
          rw [if_pos hwide]
          simpa using hothers
      | false =>
          have hothers := ih (index + 1) (e.constant :: backwards)
          have hlength : (e.slots ++ rest.flatMap Entry.slots).length =
              (rest.flatMap Entry.slots).length + 1 := by
            rw [Entry.slots_eq_of_narrow hwide, List.length_append]
            exact Nat.add_comm 1 _
          rw [hlength, Entry.slots_eq_of_narrow hwide]
          cases hrest : (rest.flatMap Entry.slots).length with
          | zero =>
              -- Reading ends here without looking for a further constant.
              rw [eq_nil_of_slots_eq_nil hrest, ConstantPool.readSlots]
              apply hconstant.bind
              rw [if_neg (by simp [hwide])]
              simpa using takes_pure (e.constant :: backwards).reverse
          | succ remaining =>
              rw [hrest] at hothers
              rw [ConstantPool.readSlots]
              apply hconstant.bind
              rw [if_neg (by simp [hwide])]
              simpa using hothers

theorem Content.takes_readPool (content : Content) :
    ConstantPool.read.Takes content.writePool content.header.pool := by
  have hslots : (poolSlots content.entries).length =
      (content.entries.flatMap Entry.slots).length + 1 := rfl
  have hcount := toNat_ofNat16 content.slots_lt
  have hnonzero : UInt16.ofNat (poolSlots content.entries).length ≠ 0 := by
    intro hzero
    rw [hzero, hslots] at hcount
    simp at hcount
  unfold ConstantPool.read writePool
  apply takes_count16 content.slots_lt
  rw [if_neg hnonzero, hcount, hslots, Nat.add_sub_cancel]
  exact (takes_readSlots 1 [.unusable]).bind_pure _

/-! ## The header -/

theorem Attribute.takes_skipAttribute (a : Attribute) : skipAttribute.Takes a.write () := by
  unfold skipAttribute write
  apply (takes_skip (length_toBytes ..)).bind
  apply takes_count32 a.body_lt
  rw [toNat_ofNat32 a.body_lt]
  exact takes_skip rfl

theorem Field.takes_skipField (f : Field) : skipField.Takes f.write () := by
  unfold skipField skipAttributes write
  apply (takes_skip (by simp)).bind
  apply takes_count16 f.attributes_lt
  rw [toNat_ofNat16 f.attributes_lt]
  exact takes_repeated fun a _ => a.takes_skipAttribute

theorem Content.takes_readHeader (content : Content) :
    readHeader.Takes content.writeHeader content.header := by
  unfold readHeader writeHeader
  apply (takes_u32 magic).bind
  rw [if_neg (by simp)]
  apply (takes_u16 content.minorVersion).bind
  apply (takes_u16 content.majorVersion).bind
  apply content.takes_readPool.bind
  apply (takes_u16 content.accessFlags).bind
  apply (takes_u16 content.thisClass).bind
  apply (takes_u16 content.superClass).bind
  apply takes_count16 content.interfaces_lt
  rw [toNat_ofNat16 content.interfaces_lt]
  apply (takes_many fun index _ => takes_u16 index).bind
  apply takes_count16 content.fields_lt
  rw [toNat_ofNat16 content.fields_lt]
  exact (takes_repeated fun f _ => f.takes_skipField).bind_pure _

/-! ## Methods -/

theorem takes_name {slots : List Constant} {index : UInt16} {text : String}
    (hslot : slots[index.toNat]? = some (.utf8 text)) :
    (u16 >>= lookupUtf8 ⟨slots.toArray⟩).Takes (toBytes 2 index.toNat) text := by
  have hholds : (ConstantPool.mk slots.toArray).Holds index (.utf8 text) :=
    ⟨by simpa using hslot, Constant.noConfusion⟩
  have hlookup : Error.ofMalformation ((ConstantPool.mk slots.toArray).utf8 index) =
      .ok text := by
    rw [ConstantPool.utf8_eq_ok_iff.mpr hholds]
    rfl
  rw [← List.append_nil (toBytes 2 index.toNat)]
  apply (takes_u16 index).bind
  exact takes_ofExcept hlookup

theorem Body.parseCode_write (b : Body) : parseCode b.write = .ok b.toCodeAttribute := by
  have hcode : b.code.length < 2 ^ 32 := by
    have hlt := b.body_lt
    omega
  have hnonzero : UInt32.ofNat b.code.length ≠ 0 := by
    intro hzero
    have hcount := toNat_ofNat32 hcode
    rw [hzero] at hcount
    exact b.code_ne_nil (List.eq_nil_of_length_eq_zero hcount.symm)
  have htakes : (readCode b.write.length).Takes
      (toBytes 2 b.maxStack.toNat ++ (toBytes 2 b.maxLocals.toNat ++
        (toBytes 4 b.code.length ++ b.code))) b.toCodeAttribute := by
    unfold readCode
    apply (takes_u16 b.maxStack).bind
    apply (takes_u16 b.maxLocals).bind
    apply takes_count32 hcode
    rw [if_neg hnonzero, toNat_ofNat32 hcode, b.length_write, if_neg (by omega)]
    exact (takes_bytes b.code).bind_pure _
  have hrest : (Cursor.start b.write.toArray).rest =
      (toBytes 2 b.maxStack.toNat ++ (toBytes 2 b.maxLocals.toNat ++
        (toBytes 4 b.code.length ++ b.code))) ++ b.rest := by
    simp [Body.write]
  obtain ⟨c', hrun, -⟩ := Reads.run_eq (htakes _) hrest
  unfold parseCode runOn
  rw [hrun]

section

variable {slots : List Constant} {name descriptor : String}

theorem MethodAttribute.Named.exists_text {a : MethodAttribute} (hnamed : a.Named slots) :
    ∃ text, slots[a.toAttribute.name.toNat]? = some (.utf8 text) ∧
      (text = codeAttributeName ↔ a.code?.isSome = true) := by
  cases a with
  | code index body => exact ⟨codeAttributeName, hnamed, by simp [code?]⟩
  | other content =>
      obtain ⟨text, hslot, hother⟩ := hnamed
      exact ⟨text, hslot, by simp [code?, hother]⟩

theorem addAttribute_eq {a : MethodAttribute} {text : String} {code : Option CodeAttribute}
    (htext : text = codeAttributeName ↔ a.code?.isSome = true)
    (hcode : a.code? = none ∨ code = none) :
    addAttribute name descriptor code text a.toAttribute.body = .ok (a.code?.or code) := by
  unfold addAttribute
  cases a with
  | code index body =>
      have hname : text = codeAttributeName := htext.mpr rfl
      have hnone : code = none := hcode.resolve_left (by simp [MethodAttribute.code?])
      have hbody : parseCode body.write = .ok body.toCodeAttribute := body.parseCode_write
      rw [if_pos hname, hnone]
      change (parseCode body.write).map some = _
      rw [hbody]
      rfl
  | other content =>
      have hname : text ≠ codeAttributeName := by
        simpa [MethodAttribute.code?] using htext
      rw [if_neg hname]
      rfl

/-- One more attribute leaves at most one code, if it is no code or none was found before. -/
theorem countP_code_cons_le_iff {a : MethodAttribute} {attributes : List MethodAttribute}
    {code : Option CodeAttribute} :
    code.toList.length + (a :: attributes).countP (·.code?.isSome) ≤ 1 ↔
      (a.code? = none ∨ code = none) ∧
        (a.code?.or code).toList.length + attributes.countP (·.code?.isSome) ≤ 1 := by
  rw [List.countP_cons]
  generalize attributes.countP (·.code?.isSome) = others
  cases a.code? with
  | none => simp
  | some body =>
      cases code with
      | none => simp [Nat.add_comm]
      | some found => simp

theorem or_findSome?_code_cons {a : MethodAttribute} {attributes : List MethodAttribute}
    {code : Option CodeAttribute} (hcode : a.code? = none ∨ code = none) :
    code.or ((a :: attributes).findSome? MethodAttribute.code?) =
      (a.code?.or code).or (attributes.findSome? MethodAttribute.code?) := by
  rw [List.findSome?_cons]
  cases hown : a.code? with
  | none => simp
  | some body =>
      have hnone : code = none := hcode.resolve_left (by simp [hown])
      simp [hnone]

theorem takes_readAttributes {attributes : List MethodAttribute} {code : Option CodeAttribute}
    (hnamed : ∀ a ∈ attributes, a.Named slots)
    (hcode : code.toList.length + attributes.countP (·.code?.isSome) ≤ 1) :
    (readAttributes ⟨slots.toArray⟩ name descriptor attributes.length code).Takes
      (attributes.flatMap (·.toAttribute.write))
      (code.or (attributes.findSome? MethodAttribute.code?)) := by
  -- Both the bound and the result account for code that was found before.
  induction attributes generalizing code with
  | nil =>
      rw [List.findSome?_nil, Option.or_none]
      exact takes_pure code
  | cons a rest ih =>
      rw [List.forall_mem_cons] at hnamed
      obtain ⟨text, hslot, htext⟩ := hnamed.1.exists_text
      obtain ⟨hfirst, hothers⟩ := countP_code_cons_le_iff.mp hcode
      have hadd := @addAttribute_eq name descriptor a text code htext hfirst
      have hrest := ih hnamed.2 hothers
      rw [← or_findSome?_code_cons hfirst] at hrest
      rw [List.length_cons, readAttributes, List.flatMap_cons, Attribute.write,
        List.append_assoc, List.append_assoc]
      apply (takes_name hslot).bind
      apply takes_count32 a.toAttribute.body_lt
      rw [toNat_ofNat32 a.toAttribute.body_lt]
      apply (takes_bytes a.toAttribute.body).bind
      rw [← List.nil_append (rest.flatMap _)]
      exact (takes_ofExcept hadd).bind hrest

theorem takes_readMethod {m : MethodInfo} (hnamed : m.Named slots) :
    ∃ entry, m.Shows slots entry ∧ (readMethod ⟨slots.toArray⟩).Takes m.write entry := by
  obtain ⟨name, hname⟩ := hnamed.name
  obtain ⟨descriptor, hdescriptor⟩ := hnamed.descriptor
  have hattributes := @takes_readAttributes slots name descriptor m.attributes none
    hnamed.attributes (by simpa using m.one_code)
  refine ⟨⟨MethodFlags.ofRaw m.flags, name, descriptor,
    m.attributes.findSome? MethodAttribute.code?⟩, ⟨rfl, hname, hdescriptor, rfl⟩, ?_⟩
  unfold readMethod MethodInfo.write
  apply ((takes_u16 m.flags).map _).bind
  apply (takes_name hname).bind
  apply (takes_name hdescriptor).bind
  apply takes_count16 m.attributes_lt
  rw [toNat_ofNat16 m.attributes_lt]
  exact hattributes.bind_pure _

/-- Methods are read one after the other, whatever is read behind them. -/
theorem readMethods_append {methods : List MethodInfo} {c : Cursor} {rest : List UInt8}
    (more : Nat) (hnamed : ∀ m ∈ methods, m.Named slots)
    (hrest : c.rest = methods.flatMap MethodInfo.write ++ rest) :
    ∃ entries c', List.Forall₂ (MethodInfo.Shows slots) methods entries ∧ c'.rest = rest ∧
      readMethods ⟨slots.toArray⟩ (methods.length + more) c =
        (entries ++ (readMethods ⟨slots.toArray⟩ more c').1,
          (readMethods ⟨slots.toArray⟩ more c').2) := by
  induction methods generalizing c with
  | nil =>
      refine ⟨[], c, .nil, hrest, ?_⟩
      rw [List.length_nil, Nat.zero_add, List.nil_append]
  | cons m others ih =>
      rw [List.forall_mem_cons] at hnamed
      rw [List.flatMap_cons, List.append_assoc] at hrest
      obtain ⟨entry, hshows, htakes⟩ := takes_readMethod hnamed.1
      obtain ⟨c₁, hrun, -, hbehind⟩ := (htakes c.position).run_eq hrest
      obtain ⟨entries, c', hall, hlast, hentries⟩ := ih hnamed.2 hbehind
      refine ⟨entry :: entries, c', .cons hshows hall, hlast, ?_⟩
      rw [List.length_cons, Nat.add_right_comm, readMethods, hrun]
      simp only [hentries, List.cons_append]

theorem readMethods_eq {methods : List MethodInfo} {c : Cursor} {rest : List UInt8}
    (hnamed : ∀ m ∈ methods, m.Named slots)
    (hrest : c.rest = methods.flatMap MethodInfo.write ++ rest) :
    ∃ entries, readMethods ⟨slots.toArray⟩ methods.length c = (entries, none) ∧
      List.Forall₂ (MethodInfo.Shows slots) methods entries := by
  obtain ⟨entries, c', hall, -, hread⟩ := readMethods_append 0 hnamed hrest
  rw [Nat.add_zero, readMethods, List.append_nil] at hread
  exact ⟨entries, hread, hall⟩

end

/-! ## Class files -/

/-- A class file is read as what it was written for, whatever follows it. -/
theorem parse_inverts_write (content : Content) (rest : List UInt8) :
    ∃ file entries, parse (content.write ++ rest).toArray = .ok file ∧
      file.toHeader = content.header ∧
      file.methods = .ok ⟨content.methods.length, entries, none⟩ ∧
      List.Forall₂ (MethodInfo.Shows (poolSlots content.entries)) content.methods entries := by
  have hstart : (Cursor.start (content.write ++ rest).toArray).rest =
      content.writeHeader ++ (content.writeMethods ++ (content.writeAttributes ++ rest)) := by
    simp [Content.write]
  obtain ⟨table, hheader, -, htable⟩ := (content.takes_readHeader 0).run_eq hstart
  have hparse : parse (content.write ++ rest).toArray =
      .ok { content.header with methodTable := table } := by
    unfold parse
    rw [hheader]
  have hcount := takes_u16 (UInt16.ofNat content.methods.length)
  rw [toNat_ofNat16 content.methods_lt] at hcount
  rw [Content.writeMethods, List.append_assoc] at htable
  obtain ⟨c, hlength, -, hmethods⟩ := (hcount table.position).run_eq htable
  obtain ⟨entries, hentries, hall⟩ := readMethods_eq content.named hmethods
  refine ⟨{ content.header with methodTable := table }, entries, hparse, rfl, ?_, hall⟩
  unfold methods
  simp only [hlength, toNat_ofNat16 content.methods_lt]
  have hpool : readMethods content.header.pool content.methods.length c = (entries, none) :=
    hentries
  rw [hpool]

/-- A wide constant, and a name that is not plain UTF-8. -/
def sampleEntries : List Entry :=
  [.utf8 "a\x00😀" (by decide +kernel), ⟨.long (-2), by simp, by simp⟩,
    .utf8 "()J" (by decide +kernel), .utf8 codeAttributeName (by decide +kernel),
    ⟨.classRef 1, by simp, by simp⟩]

def sampleBody : Body :=
  ⟨⟨2, 0, [0x14, 0x00, 0x02, 0xAD]⟩, [0, 0, 0, 0], by decide, by decide⟩

def sampleMethod : MethodInfo :=
  ⟨0x8009, 1, 4, [.other ⟨4, [], by decide⟩, .code 5 sampleBody], by decide, by decide⟩

theorem sampleMethod_named : sampleMethod.Named (poolSlots sampleEntries) := by
  refine ⟨⟨_, rfl⟩, ⟨_, rfl⟩, ?_⟩
  have hother : (MethodAttribute.other ⟨4, [], by decide⟩).Named (poolSlots sampleEntries) :=
    ⟨"()J", rfl, by decide⟩
  have hcode : (MethodAttribute.code 5 sampleBody).Named (poolSlots sampleEntries) := rfl
  simp [sampleMethod, hother, hcode]

def sampleContent : Content where
  minorVersion := 0
  majorVersion := 52
  entries := sampleEntries
  accessFlags := 0x21
  thisClass := 6
  superClass := 0
  interfaces := [6]
  fields := [⟨2, 1, 4, [⟨5, [0xFF], by decide⟩], by decide⟩]
  methods := [sampleMethod]
  attributes := [⟨1, [], by decide⟩]
  slots_lt := by decide
  interfaces_lt := by decide
  fields_lt := by decide
  methods_lt := by decide
  attributes_lt := by decide
  named := by simp [sampleMethod_named]

theorem sampleContent_read :
    ∃ file, parse (sampleContent.write ++ [0xCA, 0xFE]).toArray = .ok file ∧
      file.toHeader = sampleContent.header ∧
      file.methods = .ok ⟨1,
        [⟨⟨0x0009⟩, "a\x00😀", "()J", some ⟨2, 0, [0x14, 0x00, 0x02, 0xAD]⟩⟩], none⟩ := by
  obtain ⟨file, entries, hparse, hheader, hmethods, hshows⟩ :=
    parse_inverts_write sampleContent [0xCA, 0xFE]
  have hsample : sampleMethod.Shows (poolSlots sampleEntries)
      ⟨⟨0x0009⟩, "a\x00😀", "()J", some sampleBody.toCodeAttribute⟩ := ⟨rfl, rfl, rfl, rfl⟩
  have hentries : entries =
      [⟨⟨0x0009⟩, "a\x00😀", "()J", some sampleBody.toCodeAttribute⟩] := by
    cases hshows with
    | cons hentry hnil =>
        cases hnil
        rw [hentry.unique hsample]
  rw [hentries] at hmethods
  exact ⟨file, hparse, hheader, hmethods⟩

end Forwarding.ClassFile
