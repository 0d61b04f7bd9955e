import Mathlib.Algebra.GroupWithZero.Nat
import Forwarding.Proofs.ClassFile.RoundTrip
import Forwarding.Proofs.Text.Spelling

/-!
# The slots of a pool that was read

A pool that was read has the slots it announces, and its bytes are those of its usable
constants in their order.  A slot is unusable if and only if it is the first one or the
one behind a wide constant.  Where its references lead is not looked at in reading, so
lookups have to refuse whatever does not lead to a constant of the right kind.
-/

namespace Forwarding.ClassFile

open Reader

variable {constant : Constant} {bytes rest : List UInt8} {start index : Nat}

/-- Whether the bytes are those of a constant, with its text in whatever forms. -/
inductive Constant.IsSpelled : Constant → List UInt8 → Prop
  | text {text : String} {body : List UInt8} (hspells : Text.ModifiedUtf8.Spells body text)
      (hlength : body.length < 2 ^ 16) :
      IsSpelled (.utf8 text) (1 :: (toBytes 2 body.length ++ body))
  | other {constant : Constant} (husable : constant ≠ .unusable)
      (hother : ∀ text, constant ≠ .utf8 text) : IsSpelled constant constant.write

/-! ## Constants -/

theorem exists_text_of_reads (hreads : ConstantPool.readText.Reads start rest constant) :
    ∃ text body, constant = .utf8 text ∧ rest = toBytes 2 body.length ++ body ∧
      body.length < 2 ^ 16 ∧ Text.ModifiedUtf8.Spells body text := by
  unfold ConstantPool.readText at hreads
  obtain ⟨length, _, rfl, hbodies⟩ := reads_u16_bind_iff.mp hreads
  obtain ⟨body, _, _, rfl, hbody, htexts⟩ := reads_bind_iff.mp hbodies
  obtain ⟨rfl, hlength⟩ := reads_bytes_iff.mp hbody
  obtain ⟨text, htext, rfl⟩ := reads_bind_pure_iff.mp htexts
  obtain ⟨rfl, hdecode⟩ := reads_ofExcept_iff.mp htext
  rw [Error.ofMalformation, except_mapError_eq_ok] at hdecode
  refine ⟨text, body, rfl, ?_, ?_, Text.ModifiedUtf8.decode_eq_ok_iff.mp hdecode⟩
  · rw [hlength, List.append_nil]
  · rw [hlength]
    exact length.toNat_lt

theorem isSpelled_of_number {α : Type} {reader : Reader α} {form : α → List UInt8}
    {make : α → Constant} {tag : UInt8} {n : Nat} (htag : tag.toNat = n)
    (hform : ∀ {number}, reader.Reads start rest number ↔ rest = form number)
    (hmake : ∀ number, (make number).IsSpelled (UInt8.ofNat n :: form number))
    (hreads : (make <$> reader).Reads start rest constant) : constant.IsSpelled (tag :: rest) := by
  obtain ⟨number, hnumber, rfl⟩ := reads_map_iff.mp hreads
  have hspelled := hmake number
  rwa [← htag, UInt8.ofNat_toNat, ← hform.mp hnumber] at hspelled

theorem isSpelled_of_pair {make : UInt16 → UInt16 → Constant} {tag : UInt8} {n : Nat}
    (htag : tag.toNat = n) (hmake : ∀ first second : UInt16, (make first second).IsSpelled
      (UInt8.ofNat n :: (toBytes 2 first.toNat ++ toBytes 2 second.toNat)))
    (hreads : (u16 >>= fun first => u16 >>= fun second => pure (make first second)).Reads
      start rest constant) : constant.IsSpelled (tag :: rest) := by
  obtain ⟨first, _, rfl, hseconds⟩ := reads_u16_bind_iff.mp hreads
  obtain ⟨second, hsecond, rfl⟩ := reads_bind_pure_iff.mp hseconds
  have hspelled := hmake first second
  rwa [← htag, UInt8.ofNat_toNat, ← reads_u16_iff.mp hsecond] at hspelled

theorem isSpelled_of_readTagged {tag : UInt8}
    (hreads : (ConstantPool.readTagged index tag).Reads start rest constant) :
    constant.IsSpelled (tag :: rest) := by
  unfold ConstantPool.readTagged at hreads
  split at hreads
  next htag =>
    obtain rfl : tag = 1 := UInt8.toNat_inj.mp htag
    obtain ⟨text, body, rfl, rfl, hlength, hspells⟩ := exists_text_of_reads hreads
    exact .text hspells hlength
  next htag =>
    exact isSpelled_of_number htag reads_i32_iff (fun _ => .other (by simp) (by simp)) hreads
  next htag =>
    exact isSpelled_of_number htag reads_u32_iff (fun _ => .other (by simp) (by simp)) hreads
  next htag =>
    exact isSpelled_of_number htag reads_i64_iff (fun _ => .other (by simp) (by simp)) hreads
  next htag =>
    exact isSpelled_of_number htag reads_u64_iff (fun _ => .other (by simp) (by simp)) hreads
  next htag =>
    exact isSpelled_of_number htag reads_u16_iff (fun _ => .other (by simp) (by simp)) hreads
  next htag =>
    exact isSpelled_of_number htag reads_u16_iff (fun _ => .other (by simp) (by simp)) hreads
  next htag => exact isSpelled_of_pair htag (fun _ _ => .other (by simp) (by simp)) hreads
  next htag => exact isSpelled_of_pair htag (fun _ _ => .other (by simp) (by simp)) hreads
  next htag => exact isSpelled_of_pair htag (fun _ _ => .other (by simp) (by simp)) hreads
  next htag => exact isSpelled_of_pair htag (fun _ _ => .other (by simp) (by simp)) hreads
  next htag =>
    obtain rfl : tag = 15 := UInt8.toNat_inj.mp htag
    obtain ⟨_, _, kind, rfl, hkind, hreferences⟩ := reads_bind_iff.mp hreads
    obtain ⟨reference, hreference, rfl⟩ := reads_bind_pure_iff.mp hreferences
    rw [reads_u8_iff.mp hkind, reads_u16_iff.mp hreference]
    exact .other (by simp) (by simp)
  next htag =>
    exact isSpelled_of_number htag reads_u16_iff (fun _ => .other (by simp) (by simp)) hreads
  next htag => exact isSpelled_of_pair htag (fun _ _ => .other (by simp) (by simp)) hreads
  next htag => exact isSpelled_of_pair htag (fun _ _ => .other (by simp) (by simp)) hreads
  next htag =>
    exact isSpelled_of_number htag reads_u16_iff (fun _ => .other (by simp) (by simp)) hreads
  next htag =>
    exact isSpelled_of_number htag reads_u16_iff (fun _ => .other (by simp) (by simp)) hreads
  next => cases reads_fail_iff.mp hreads

theorem isSpelled_of_readConstant
    (hreads : (ConstantPool.readConstant index).Reads start bytes constant) :
    constant.IsSpelled bytes := by
  unfold ConstantPool.readConstant at hreads
  obtain ⟨_, rest, tag, rfl, htag, htagged⟩ := reads_bind_iff.mp hreads
  rw [reads_u8_iff.mp htag]
  exact isSpelled_of_readTagged htagged

theorem Constant.IsSpelled.exists_entry (hspelled : constant.IsSpelled bytes) :
    ∃ e : Entry, e.constant = constant := by
  cases hspelled with
  | @text text body hspells hlength =>
      obtain ⟨spelling, rfl, hunits⟩ := hspells
      have hshorter := spelling.length_flatMap_encodeUnit.1
      rw [hunits, ← Text.ModifiedUtf8.encode_eq] at hshorter
      exact ⟨.utf8 text (Nat.lt_of_le_of_lt hshorter hlength), rfl⟩
  | other husable hother =>
      exact ⟨⟨constant, husable, fun text htext => absurd htext (hother text)⟩, rfl⟩

/-! ## Slots -/

section

variable {e : Entry} {others : List Entry}

theorem flatMap_slots_of_wide (hwide : e.constant.isWide = true) :
    (e :: others).flatMap Entry.slots =
      e.constant :: .unusable :: others.flatMap Entry.slots := by
  rw [List.flatMap_cons, Entry.slots_eq_of_wide hwide]
  rfl

theorem flatMap_slots_of_narrow (hnarrow : e.constant.isWide = false) :
    (e :: others).flatMap Entry.slots = e.constant :: others.flatMap Entry.slots := by
  rw [List.flatMap_cons, Entry.slots_eq_of_narrow hnarrow]
  rfl

end

/-- The slots that are filled are those of constants, one after the other. -/
theorem exists_entries_of_reads {remaining : Nat} {backwards slots : List Constant}
    (hreads : (ConstantPool.readSlots remaining index backwards).Reads start bytes slots) :
    ∃ (entries : List Entry) (pieces : List (List UInt8)),
      slots = backwards.reverse ++ entries.flatMap Entry.slots ∧
      (entries.flatMap Entry.slots).length = remaining ∧ bytes = pieces.flatten ∧
      List.Forall₂ Constant.IsSpelled (entries.map (·.constant)) pieces := by
  induction remaining, index, backwards using ConstantPool.readSlots.induct
    generalizing start bytes with
  | case1 index backwards =>
      obtain ⟨rfl, rfl⟩ := reads_pure_iff.mp hreads
      exact ⟨[], [], by simp, rfl, rfl, .nil⟩
  | case2 index backwards =>
      obtain ⟨piece, rest, constant, rfl, hconstant, hrest⟩ := reads_bind_iff.mp hreads
      have hspelled := isSpelled_of_readConstant hconstant
      obtain ⟨e, rfl⟩ := hspelled.exists_entry
      split at hrest
      next => cases reads_fail_iff.mp hrest
      next hnarrow =>
        rw [Bool.not_eq_true] at hnarrow
        obtain ⟨rfl, rfl⟩ := reads_pure_iff.mp hrest
        refine ⟨[e], [piece], ?_, ?_, by simp, .cons hspelled .nil⟩
        · simp [flatMap_slots_of_narrow hnarrow]
        · simp [flatMap_slots_of_narrow hnarrow]
  | case3 remaining index backwards ihWide ihNarrow =>
      obtain ⟨piece, rest, constant, rfl, hconstant, hrest⟩ := reads_bind_iff.mp hreads
      have hspelled := isSpelled_of_readConstant hconstant
      obtain ⟨e, rfl⟩ := hspelled.exists_entry
      split at hrest
      next hwide =>
        obtain ⟨entries, pieces, rfl, hlength, rfl, hall⟩ := ihWide e.constant hrest
        refine ⟨e :: entries, piece :: pieces, ?_, ?_, rfl, .cons hspelled hall⟩
        · simp [flatMap_slots_of_wide hwide]
        · simp [flatMap_slots_of_wide hwide, hlength]
      next hnarrow =>
        rw [Bool.not_eq_true] at hnarrow
        obtain ⟨entries, pieces, rfl, hlength, rfl, hall⟩ := ihNarrow e.constant hrest
        refine ⟨e :: entries, piece :: pieces, ?_, ?_, rfl, .cons hspelled hall⟩
        · simp [flatMap_slots_of_narrow hnarrow]
        · simp [flatMap_slots_of_narrow hnarrow, hlength]

/-- A slot is unusable if and only if the one in front of it holds a wide constant. -/
theorem flatMap_slots_eq_unusable_iff {entries : List Entry} {previous : Constant} {i : Nat}
    (hnarrow : previous.isWide = false) :
    (entries.flatMap Entry.slots)[i]? = some .unusable ↔
      ∃ constant, (previous :: entries.flatMap Entry.slots)[i]? = some constant ∧
        constant.isWide = true := by
  induction entries generalizing previous i with
  | nil =>
      cases i with
      | zero => simp [hnarrow]
      | succ i => simp
  | cons e rest ih =>
      cases hwide : e.constant.isWide with
      | false =>
          rw [flatMap_slots_of_narrow hwide]
          cases i with
          | zero => simp [hnarrow, e.usable]
          | succ i => simpa using ih hwide
      | true =>
          have hunusable : Constant.unusable.isWide = false := rfl
          rw [flatMap_slots_of_wide hwide]
          match i with
          | 0 => simp [hnarrow, e.usable]
          | 1 => simp [hwide]
          | i + 2 => simpa using ih hunusable

theorem poolSlots_eq_unusable_iff {entries : List Entry} {i : Nat} :
    (poolSlots entries)[i]? = some .unusable ↔
      i = 0 ∨ ∃ j constant, i = j + 1 ∧ (poolSlots entries)[j]? = some constant ∧
        constant.isWide = true := by
  cases i with
  | zero => simp [poolSlots]
  | succ i =>
      have hbehind := @flatMap_slots_eq_unusable_iff entries .unusable i rfl
      simpa [poolSlots] using hbehind

theorem filter_poolSlots (entries : List Entry) :
    (poolSlots entries).filter (· ≠ .unusable) = entries.map (·.constant) := by
  have hslots (e : Entry) : e.slots.filter (· ≠ .unusable) = [e.constant] := by
    unfold Entry.slots
    split <;> simp [e.usable]
  simp only [poolSlots, List.filter_cons, List.filter_flatMap, hslots, List.map_eq_flatMap]
  rfl

namespace ConstantPool

variable {pool : ConstantPool} {cause : Malformation}

/-- The constants that can be looked up, in the order of their indices. -/
def usable (pool : ConstantPool) : List Constant :=
  pool.slots.toList.filter (· ≠ .unusable)

/-- What is read as a pool is a count and the constants that fill as many slots. -/
theorem exists_entries_of_read {c c' : Cursor} (hread : read.run c = (.ok pool, c')) :
    ∃ (count : UInt16) (entries : List Entry) (pieces : List (List UInt8)),
      pool.slots.toList = poolSlots entries ∧ pool.size = count.toNat ∧
      List.Forall₂ Constant.IsSpelled (entries.map (·.constant)) pieces ∧
      c.Passes (toBytes 2 count.toNat ++ pieces.flatten) c' := by
  obtain ⟨bytes, hpasses, hreads⟩ := run_eq_ok_iff.mp hread
  unfold read at hreads
  obtain ⟨count, rest, rfl, hrest⟩ := reads_u16_bind_iff.mp hreads
  split at hrest
  next => cases reads_fail_iff.mp hrest
  next hnonzero =>
    have hpos : count.toNat ≠ 0 := fun hzero => hnonzero (UInt16.toNat_inj.mp hzero)
    obtain ⟨slots, hslots, rfl⟩ := reads_bind_pure_iff.mp hrest
    obtain ⟨entries, pieces, rfl, hlength, rfl, hall⟩ := exists_entries_of_reads hslots
    refine ⟨count, entries, pieces, rfl, ?_, hall, hpasses⟩
    simp only [size, List.size_toArray, List.length_append, List.length_reverse,
      List.length_singleton, hlength]
    omega

/-! ## Lookups that are refused -/

/-- Whether the pool is as a refusal says. -/
inductive Refuses (pool : ConstantPool) : Malformation → Prop
  | missing {index : UInt16} (hnone : ∀ constant, ¬pool.Holds index constant) :
      Refuses pool (.poolIndex index)
  | notUtf8 {index : UInt16} {found : Constant} (hholds : pool.Holds index found)
      (hkind : ∀ text, found ≠ .utf8 text) : Refuses pool (.notUtf8 index found)
  | notClass {index : UInt16} {found : Constant} (hholds : pool.Holds index found)
      (hkind : ∀ name, found ≠ .classRef name) : Refuses pool (.notClass index found)
  | notNameAndType {index : UInt16} {found : Constant} (hholds : pool.Holds index found)
      (hkind : ∀ name descriptor, found ≠ .nameAndType name descriptor) :
      Refuses pool (.notNameAndType index found)
  | notMember {index : UInt16} {found : Constant} (hholds : pool.Holds index found)
      (hkind : ∀ kind owner signature, found ≠ MemberKind.reference kind owner signature) :
      Refuses pool (.notMember index found)

variable {index : UInt16}

theorem get_eq_error_iff :
    pool.get index = .error cause ↔
      cause = .poolIndex index ∧ ∀ constant, ¬pool.Holds index constant := by
  have hcause {cause : Malformation} (herror : pool.get index = .error cause) :
      cause = .poolIndex index := by
    unfold get at herror
    split at herror
    next =>
      cases herror
      rfl
    next =>
      cases herror
      rfl
    next => cases herror
  constructor
  · intro herror
    refine ⟨hcause herror, fun constant hholds => ?_⟩
    rw [get_eq_ok_iff.mpr hholds] at herror
    cases herror
  · rintro ⟨rfl, hnone⟩
    cases hget : pool.get index with
    | ok constant => exact absurd (get_eq_ok_iff.mp hget) (hnone constant)
    | error cause => rw [hcause hget]

theorem refuses_of_get (herror : pool.get index = .error cause) : pool.Refuses cause := by
  obtain ⟨rfl, hnone⟩ := get_eq_error_iff.mp herror
  exact .missing hnone

theorem refuses_of_utf8 (herror : pool.utf8 index = .error cause) : pool.Refuses cause := by
  unfold utf8 at herror
  rcases except_bind_eq_error.mp herror with hget | ⟨found, hfound, hkind⟩
  · exact refuses_of_get hget
  · split at hkind
    next => cases hkind
    next hother =>
      cases hkind
      exact .notUtf8 (get_eq_ok_iff.mp hfound) hother

theorem refuses_of_className (herror : pool.className index = .error cause) :
    pool.Refuses cause := by
  unfold className at herror
  rcases except_bind_eq_error.mp herror with hget | ⟨found, hfound, hkind⟩
  · exact refuses_of_get hget
  · split at hkind
    next => exact refuses_of_utf8 hkind
    next hother =>
      cases hkind
      exact .notClass (get_eq_ok_iff.mp hfound) hother

theorem refuses_of_nameAndType (herror : pool.nameAndType index = .error cause) :
    pool.Refuses cause := by
  unfold nameAndType at herror
  rcases except_bind_eq_error.mp herror with hget | ⟨found, hfound, hkind⟩
  · exact refuses_of_get hget
  · split at hkind
    next name descriptor =>
      rcases except_bind_eq_error.mp hkind with hname | ⟨first, -, hrest⟩
      · exact refuses_of_utf8 hname
      · rcases except_bind_eq_error.mp hrest with hdescriptor | ⟨second, -, hpair⟩
        · exact refuses_of_utf8 hdescriptor
        · cases hpair
    next hother =>
      cases hkind
      exact .notNameAndType (get_eq_ok_iff.mp hfound) hother

theorem refuses_of_memberRef (herror : pool.memberRef index = .error cause) :
    pool.Refuses cause := by
  unfold memberRef at herror
  rcases except_bind_eq_error.mp herror with hget | ⟨found, hfound, hkind⟩
  · exact refuses_of_get hget
  · split at hkind
    next kind owner signature hindices =>
      rcases except_bind_eq_error.mp hkind with hsignature | ⟨pair, -, hrest⟩
      · exact refuses_of_nameAndType hsignature
      · rcases except_bind_eq_error.mp hrest with howner | ⟨text, -, hwhole⟩
        · exact refuses_of_className howner
        · cases hwhole
    next hnone =>
      cases hkind
      refine .notMember (get_eq_ok_iff.mp hfound) fun kind owner signature hreference => ?_
      rw [memberIndices?_eq_some_iff.mpr hreference] at hnone
      cases hnone

/-- A pool that was read has the slots that were counted, of which those at the beginning and
behind wide constants are unusable, and was read from its usable constants.  Every lookup in
it gives what the index leads to, or is refused for something that is so. -/
theorem read_slots_and_references (c c' : Cursor) (pool : ConstantPool)
    (hread : read.run c = (.ok pool, c')) :
    (∃ (count : UInt16) (pieces : List (List UInt8)), pool.size = count.toNat ∧
      List.Forall₂ Constant.IsSpelled pool.usable pieces ∧
      c.Passes (toBytes 2 count.toNat ++ pieces.flatten) c' ∧
      c'.position = c.position + 2 + (pieces.map List.length).sum) ∧
    (∀ i, pool.slots[i]? = some .unusable ↔ i = 0 ∨ ∃ j constant, i = j + 1 ∧
      pool.slots[j]? = some constant ∧ constant.isWide = true) ∧
    ∀ index : UInt16,
      (∀ constant, pool.get index = .ok constant ↔
        pool.slots[index.toNat]? = some constant ∧ constant ≠ .unusable) ∧
      ((∀ constant, ¬pool.Holds index constant) →
        Error.ofMalformation (pool.get index) = .error (.malformed (.poolIndex index))) ∧
      (∀ member, pool.memberRef index = .ok member ↔ pool.Refers index member) ∧
      ((∀ member, ¬pool.Refers index member) → ∃ cause, pool.Refuses cause ∧
        Error.ofMalformation (pool.memberRef index) = .error (.malformed cause)) := by
  obtain ⟨count, entries, pieces, hslots, hsize, hall, hpasses⟩ := exists_entries_of_read hread
  refine ⟨⟨count, pieces, hsize, ?_, hpasses, ?_⟩, fun i => ?_,
    fun index => ⟨fun constant => get_eq_ok_iff, fun hnone => ?_,
      fun member => memberRef_eq_ok_iff, fun hnone => ?_⟩⟩
  · rw [usable, hslots, filter_poolSlots]
    exact hall
  · rw [hpasses.position, List.length_append, length_toBytes, List.length_flatten, Nat.add_assoc]
  · simp only [← Array.getElem?_toList, hslots]
    exact poolSlots_eq_unusable_iff
  · rw [get_eq_error_iff.mpr ⟨rfl, hnone⟩]
    rfl
  · cases hmember : pool.memberRef index with
    | ok member => exact absurd (memberRef_eq_ok_iff.mp hmember) (hnone member)
    | error cause => exact ⟨cause, refuses_of_memberRef hmember, rfl⟩

/-- Two bytes, and a pool behind them.  Its text is an overlong letter, and its last constant
refers to the second slot of a wide one and to itself. -/
def strayBytes : Array UInt8 :=
  #[0xFF, 0xFF, 0x00, 0x08,
    0x01, 0x00, 0x02, 0xC1, 0x81,
    0x05, 0x00, 0x00, 0x00, 0x00, 0x00, 0x00, 0x00, 0x2A,
    0x07, 0x00, 0x01,
    0x0C, 0x00, 0x01, 0x00, 0x01,
    0x0A, 0x00, 0x04, 0x00, 0x05,
    0x0A, 0x00, 0x03, 0x00, 0x07]

def strayCursor : Cursor :=
  ⟨strayBytes, 2, by decide⟩

def strayPool : ConstantPool :=
  ⟨#[.unusable, .utf8 "A", .long 42, .unusable, .classRef 1, .nameAndType 1 1,
    .methodRef 4 5, .methodRef 3 7]⟩

theorem read_slots_and_references_stray :
    ∃ c', read.run strayCursor = (.ok strayPool, c') ∧
      (∃ pieces, List.Forall₂ Constant.IsSpelled strayPool.usable pieces ∧
        c'.position = 4 + (pieces.map List.length).sum) ∧
      strayPool.slots[3]? = some .unusable ∧
      Error.ofMalformation (strayPool.get 3) = .error (.malformed (.poolIndex 3)) ∧
      strayPool.memberRef 6 = .ok ⟨.method, "A", "A", "A"⟩ ∧
      ∃ cause, strayPool.Refuses cause ∧
        Error.ofMalformation (strayPool.memberRef 7) = .error (.malformed cause) := by
  rcases hrun : read.run strayCursor with ⟨outcome, c'⟩
  have hpool : outcome.toOption = some strayPool := by
    have hcomputed : (read.run strayCursor).1.toOption = some strayPool := by decide +kernel
    rwa [hrun] at hcomputed
  rw [except_toOption_eq_some] at hpool
  subst hpool
  obtain ⟨⟨count, pieces, -, hall, -, hposition⟩, hunusable, hlookups⟩ :=
    read_slots_and_references _ _ _ hrun
  have hsecond : strayPool.slots[3]? = some .unusable :=
    (hunusable 3).mpr (Or.inr ⟨2, .long 42, rfl, rfl, rfl⟩)
  refine ⟨c', rfl, ⟨pieces, hall, hposition⟩, hsecond, ?_, ?_, ?_⟩
  · refine (hlookups 3).2.1 fun constant hholds => ?_
    exact hholds.2 (Option.some.inj (hholds.1.symm.trans hsecond))
  · refine ((hlookups 6).2.2.1 _).mpr ⟨4, 5, 1, 1, 1, ?_⟩
    simp [Holds, strayPool, MemberKind.reference]
  · refine (hlookups 7).2.2.2 ?_
    rintro member ⟨owner, signature, ownerName, name, descriptor, hmember, hclass, -⟩
    have hreference : Constant.methodRef 3 7 = member.kind.reference owner signature :=
      Option.some.inj hmember.1
    have howner : owner = 3 := by
      cases hkind : member.kind <;> rw [hkind] at hreference <;> cases hreference
      rfl
    rw [howner] at hclass
    have hfound := hsecond.symm.trans hclass.1
    cases hfound

end ConstantPool

end Forwarding.ClassFile
