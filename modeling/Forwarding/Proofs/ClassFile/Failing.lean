import Forwarding.ClassFile.MethodTable
import Forwarding.Proofs.Bytes.Failing

/-!
# What reading a class file can fail with

Bytes that do not begin as a class file are not supported.  Everything behind the
beginning is read, and what cannot be read is cut short or malformed.
-/

namespace Forwarding.ClassFile

open Reader

variable {pool : ConstantPool} {error : Error}

/-! ## Constants -/

theorem onlyUnreadable_readText : ConstantPool.readText.OnlyUnreadable := by
  refine onlyUnreadable_u16.bind fun length => ?_
  refine (onlyUnreadable_bytes _).bind fun bytes => ?_
  exact (onlyUnreadable_ofMalformation _).bind fun text => onlyUnreadable_pure _

theorem onlyUnreadable_pair (make : UInt16 → UInt16 → Constant) :
    (do
      let first ← u16
      let second ← u16
      pure (make first second) : Reader Constant).OnlyUnreadable :=
  onlyUnreadable_u16.bind fun _ => onlyUnreadable_u16.bind fun _ => onlyUnreadable_pure _

theorem onlyUnreadable_readTagged (index : Nat) (tag : UInt8) :
    (ConstantPool.readTagged index tag).OnlyUnreadable := by
  unfold ConstantPool.readTagged
  split
  · exact onlyUnreadable_readText
  · exact onlyUnreadable_i32.map
  · exact onlyUnreadable_u32.map
  · exact onlyUnreadable_i64.map
  · exact onlyUnreadable_u64.map
  · exact onlyUnreadable_u16.map
  · exact onlyUnreadable_u16.map
  · exact onlyUnreadable_pair _
  · exact onlyUnreadable_pair _
  · exact onlyUnreadable_pair _
  · exact onlyUnreadable_pair _
  · exact onlyUnreadable_u8.bind fun _ => onlyUnreadable_u16.bind fun _ => onlyUnreadable_pure _
  · exact onlyUnreadable_u16.map
  · exact onlyUnreadable_pair _
  · exact onlyUnreadable_pair _
  · exact onlyUnreadable_u16.map
  · exact onlyUnreadable_u16.map
  · exact onlyUnreadable_malformed _

theorem onlyUnreadable_readConstant (index : Nat) :
    (ConstantPool.readConstant index).OnlyUnreadable :=
  onlyUnreadable_u8.bind (onlyUnreadable_readTagged index)

theorem onlyUnreadable_readSlots (remaining index : Nat) (backwards : List Constant) :
    (ConstantPool.readSlots remaining index backwards).OnlyUnreadable := by
  induction remaining, index, backwards using ConstantPool.readSlots.induct with
  | case1 index backwards => exact onlyUnreadable_pure _
  | case2 index backwards =>
      refine (onlyUnreadable_readConstant index).bind fun constant => ?_
      split
      next => exact onlyUnreadable_malformed _
      next => exact onlyUnreadable_pure _
  | case3 remaining index backwards ihWide ihNarrow =>
      refine (onlyUnreadable_readConstant index).bind fun constant => ?_
      split
      next => exact ihWide constant
      next => exact ihNarrow constant

theorem onlyUnreadable_readPool : ConstantPool.read.OnlyUnreadable := by
  refine onlyUnreadable_u16.bind fun count => ?_
  split
  next => exact onlyUnreadable_malformed _
  next => exact (onlyUnreadable_readSlots _ _ _).bind fun slots => onlyUnreadable_pure _

/-! ## The header -/

theorem onlyUnreadable_skipAttribute : skipAttribute.OnlyUnreadable :=
  (onlyUnreadable_skip 2).bind fun _ => onlyUnreadable_u32.bind fun _ => onlyUnreadable_skip _

theorem onlyUnreadable_skipAttributes : skipAttributes.OnlyUnreadable :=
  onlyUnreadable_u16.bind fun _ => onlyUnreadable_repeated onlyUnreadable_skipAttribute _

theorem onlyUnreadable_skipField : skipField.OnlyUnreadable :=
  (onlyUnreadable_skip 6).bind fun _ => onlyUnreadable_skipAttributes

theorem error_of_readHeader {c c' : Cursor} (hrun : readHeader.run c = (.error error, c')) :
    error = .notSupported ∨ error.IsUnreadable := by
  -- Only the reader behind the magic number has no errors but those of unreadable bytes.
  unfold readHeader at hrun
  rw [run_bind] at hrun
  split at hrun
  next first c₁ _ =>
    split at hrun
    next =>
      cases hrun
      exact Or.inl rfl
    next =>
      refine Or.inr (OnlyUnreadable.of_run ?_ hrun)
      refine onlyUnreadable_u16.bind fun minorVersion => ?_
      refine onlyUnreadable_u16.bind fun majorVersion => ?_
      refine onlyUnreadable_readPool.bind fun pool => ?_
      refine onlyUnreadable_u16.bind fun accessFlags => ?_
      refine onlyUnreadable_u16.bind fun thisClass => ?_
      refine onlyUnreadable_u16.bind fun superClass => ?_
      refine onlyUnreadable_u16.bind fun interfaceCount => ?_
      refine (onlyUnreadable_many onlyUnreadable_u16 _).bind fun interfaces => ?_
      refine onlyUnreadable_u16.bind fun fieldCount => ?_
      exact (onlyUnreadable_repeated onlyUnreadable_skipField _).bind fun _ =>
        onlyUnreadable_pure _
  next hfirst =>
    cases hrun
    exact Or.inr (onlyUnreadable_u32.of_run hfirst)

theorem error_of_parse {data : Array UInt8} (hparse : parse data = .error error) :
    error = .notSupported ∨ error.IsUnreadable := by
  unfold parse at hparse
  split at hparse
  next => cases hparse
  next hrun =>
    cases hparse
    exact error_of_readHeader hrun

/-! ## The method table -/

theorem onlyUnreadable_readCode (size : Nat) : (readCode size).OnlyUnreadable := by
  refine onlyUnreadable_u16.bind fun maxStack => ?_
  refine onlyUnreadable_u16.bind fun maxLocals => ?_
  refine onlyUnreadable_u32.bind fun length => ?_
  split
  next => exact onlyUnreadable_malformed _
  next =>
    split
    next => exact onlyUnreadable_malformed _
    next => exact (onlyUnreadable_bytes _).bind fun code => onlyUnreadable_pure _

theorem isUnreadable_of_parseCode {body : List UInt8} (hcode : parseCode body = .error error) :
    error.IsUnreadable :=
  (onlyUnreadable_readCode body.length).of_run (Prod.ext hcode rfl)

theorem isUnreadable_of_addAttribute {methodName descriptor attributeName : String}
    {code : Option CodeAttribute} {body : List UInt8}
    (hadd : addAttribute methodName descriptor code attributeName body = .error error) :
    error.IsUnreadable := by
  unfold addAttribute at hadd
  split at hadd
  next =>
    split at hadd
    next =>
      cases hadd
      exact .malformed _
    next =>
      cases hcode : parseCode body with
      | ok codeAttribute =>
          rw [hcode] at hadd
          cases hadd
      | error failure =>
          rw [hcode] at hadd
          cases hadd
          exact isUnreadable_of_parseCode hcode
  next => cases hadd

theorem onlyUnreadable_readName (pool : ConstantPool) :
    (u16 >>= lookupUtf8 pool).OnlyUnreadable :=
  onlyUnreadable_u16.bind fun _ => onlyUnreadable_ofMalformation _

theorem onlyUnreadable_readAttributes (methodName descriptor : String) (count : Nat)
    (code : Option CodeAttribute) :
    (readAttributes pool methodName descriptor count code).OnlyUnreadable := by
  induction count generalizing code with
  | zero => exact onlyUnreadable_pure code
  | succ count ih =>
      refine (onlyUnreadable_readName pool).bind fun attributeName => ?_
      refine onlyUnreadable_u32.bind fun length => ?_
      refine (onlyUnreadable_bytes _).bind fun body => ?_
      have hadded : (ofExcept
          (addAttribute methodName descriptor code attributeName body)).OnlyUnreadable :=
        onlyUnreadable_ofExcept fun _ => isUnreadable_of_addAttribute
      exact hadded.bind ih

theorem onlyUnreadable_readMethod (pool : ConstantPool) : (readMethod pool).OnlyUnreadable := by
  refine onlyUnreadable_u16.map.bind fun flags => ?_
  refine (onlyUnreadable_readName pool).bind fun name => ?_
  refine (onlyUnreadable_readName pool).bind fun descriptor => ?_
  refine onlyUnreadable_u16.bind fun attributeCount => ?_
  exact (onlyUnreadable_readAttributes name descriptor _ none).bind fun code =>
    onlyUnreadable_pure _

theorem isUnreadable_of_readMethods {count : Nat} {c : Cursor}
    (hfailure : (readMethods pool count c).2 = some error) : error.IsUnreadable := by
  induction count generalizing c with
  | zero => cases hfailure
  | succ count ih =>
      unfold readMethods at hfailure
      split at hfailure
      next => exact ih hfailure
      next hmethod =>
        cases hfailure
        exact (onlyUnreadable_readMethod pool).of_run hmethod

theorem isUnreadable_of_methods {file : ClassFile} (hmethods : file.methods = .error error) :
    error.IsUnreadable := by
  unfold methods at hmethods
  split at hmethods
  next => cases hmethods
  next hcount =>
    cases hmethods
    exact onlyUnreadable_u16.of_run hcount

theorem isUnreadable_of_failure {file : ClassFile} {table : MethodTable}
    (htable : file.methods = .ok table) (hfailure : table.failure = some error) :
    error.IsUnreadable := by
  unfold methods at htable
  split at htable
  next =>
    cases htable
    exact isUnreadable_of_readMethods hfailure
  next => cases htable

end Forwarding.ClassFile
