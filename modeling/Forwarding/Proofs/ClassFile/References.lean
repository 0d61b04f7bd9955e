import Forwarding.ClassFile.ConstantPool
import Forwarding.Proofs.Outcome

/-!
# What references lead to

A reference from one constant to another is an index and may be anything.  Looking one up
succeeds if and only if every index on the way is that of a constant of the right kind.
-/

namespace Forwarding.ClassFile.ConstantPool

variable {pool : ConstantPool} {index : UInt16} {constant : Constant} {text : String}

/-- Whether a usable constant stands in a slot. -/
def Holds (pool : ConstantPool) (index : UInt16) (constant : Constant) : Prop :=
  pool.slots[index.toNat]? = some constant ∧ constant ≠ .unusable

/-- The constant that refers to a member of a kind. -/
def MemberKind.reference : MemberKind → UInt16 → UInt16 → Constant
  | .field => .fieldRef
  | .method => .methodRef
  | .interfaceMethod => .interfaceMethodRef

/-- Whether the constant with an index refers to a member, by way of its class and of its
name and type. -/
def Refers (pool : ConstantPool) (index : UInt16) (member : MemberRef) : Prop :=
  ∃ owner signature ownerName name descriptor : UInt16,
    pool.Holds index (member.kind.reference owner signature) ∧
    pool.Holds owner (.classRef ownerName) ∧
    pool.Holds ownerName (.utf8 member.owner) ∧
    pool.Holds signature (.nameAndType name descriptor) ∧
    pool.Holds name (.utf8 member.name) ∧
    pool.Holds descriptor (.utf8 member.descriptor)

theorem get_eq_ok_iff : pool.get index = .ok constant ↔ pool.Holds index constant := by
  unfold get Holds
  split
  next hslot => simp [hslot]
  next hslot =>
    constructor
    · intro hok
      cases hok
    · rintro ⟨hsome, husable⟩
      exact absurd (Option.some.inj (hslot.symm.trans hsome)).symm husable
  next found husable hslot =>
    rw [hslot]
    constructor
    · intro hok
      cases hok
      exact ⟨rfl, husable⟩
    · rintro ⟨hsome, -⟩
      rw [Option.some.inj hsome]

theorem utf8_eq_ok_iff : pool.utf8 index = .ok text ↔ pool.Holds index (.utf8 text) := by
  unfold utf8
  rw [except_bind_eq_ok]
  constructor
  · rintro ⟨found, hfound, htext⟩
    split at htext
    next =>
      cases htext
      exact get_eq_ok_iff.mp hfound
    next => cases htext
  · intro hholds
    exact ⟨_, get_eq_ok_iff.mpr hholds, rfl⟩

theorem className_eq_ok_iff :
    pool.className index = .ok text ↔
      ∃ name, pool.Holds index (.classRef name) ∧ pool.Holds name (.utf8 text) := by
  unfold className
  rw [except_bind_eq_ok]
  constructor
  · rintro ⟨found, hfound, htext⟩
    split at htext
    next name => exact ⟨name, get_eq_ok_iff.mp hfound, utf8_eq_ok_iff.mp htext⟩
    next => cases htext
  · rintro ⟨name, hclass, hname⟩
    exact ⟨_, get_eq_ok_iff.mpr hclass, utf8_eq_ok_iff.mpr hname⟩

theorem nameAndType_eq_ok_iff {signature : String × String} :
    pool.nameAndType index = .ok signature ↔
      ∃ name descriptor, pool.Holds index (.nameAndType name descriptor) ∧
        pool.Holds name (.utf8 signature.1) ∧ pool.Holds descriptor (.utf8 signature.2) := by
  unfold nameAndType
  rw [except_bind_eq_ok]
  constructor
  · rintro ⟨found, hfound, hsignature⟩
    split at hsignature
    next name descriptor =>
      obtain ⟨first, hfirst, hrest⟩ := except_bind_eq_ok.mp hsignature
      obtain ⟨second, hsecond, hpair⟩ := except_bind_eq_ok.mp hrest
      cases hpair
      exact ⟨name, descriptor, get_eq_ok_iff.mp hfound, utf8_eq_ok_iff.mp hfirst,
        utf8_eq_ok_iff.mp hsecond⟩
    next => cases hsignature
  · rintro ⟨name, descriptor, hboth, hname, hdescriptor⟩
    refine ⟨_, get_eq_ok_iff.mpr hboth, except_bind_eq_ok.mpr ?_⟩
    refine ⟨_, utf8_eq_ok_iff.mpr hname, except_bind_eq_ok.mpr ?_⟩
    exact ⟨_, utf8_eq_ok_iff.mpr hdescriptor, rfl⟩

theorem memberIndices?_eq_some_iff {kind : MemberKind} {owner signature : UInt16} :
    memberIndices? constant = some (kind, owner, signature) ↔
      constant = kind.reference owner signature := by
  constructor
  · intro hindices
    cases constant <;> cases hindices <;> rfl
  · rintro rfl
    cases kind <;> rfl

theorem memberRef_eq_ok_iff {member : MemberRef} :
    pool.memberRef index = .ok member ↔ pool.Refers index member := by
  unfold memberRef
  rw [except_bind_eq_ok]
  constructor
  · rintro ⟨found, hfound, hmember⟩
    split at hmember
    next kind owner signature hindices =>
      obtain ⟨pair, hpair, hrest⟩ := except_bind_eq_ok.mp hmember
      obtain ⟨ownerText, howner, hwhole⟩ := except_bind_eq_ok.mp hrest
      cases hwhole
      obtain ⟨name, descriptor, hsignature, hname, hdescriptor⟩ := nameAndType_eq_ok_iff.mp hpair
      obtain ⟨ownerName, hclass, hownerName⟩ := className_eq_ok_iff.mp howner
      rw [memberIndices?_eq_some_iff.mp hindices, get_eq_ok_iff] at hfound
      exact ⟨owner, signature, ownerName, name, descriptor, hfound, hclass, hownerName,
        hsignature, hname, hdescriptor⟩
    next => cases hmember
  · rintro ⟨owner, signature, ownerName, name, descriptor, hindex, hclass, hownerName,
      hsignature, hname, hdescriptor⟩
    refine ⟨_, get_eq_ok_iff.mpr hindex, ?_⟩
    rw [memberIndices?_eq_some_iff.mpr rfl]
    refine except_bind_eq_ok.mpr ⟨(member.name, member.descriptor), ?_, ?_⟩
    · exact nameAndType_eq_ok_iff.mpr ⟨name, descriptor, hsignature, hname, hdescriptor⟩
    · refine except_bind_eq_ok.mpr ⟨member.owner, ?_, rfl⟩
      exact className_eq_ok_iff.mpr ⟨ownerName, hclass, hownerName⟩

end Forwarding.ClassFile.ConstantPool
