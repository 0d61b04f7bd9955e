/-!
# Method access flags

The access flags of a method, restricted to the ones that have a meaning.  A
method that is both a bridge and synthetic is a forwarding stub: the compiler
put it there to call the method that the programmer wrote.
-/

namespace Forwarding

/-- The flags with a meaning, the lowest bit first. -/
inductive MethodFlag
  | isPublic
  | isPrivate
  | isProtected
  | isStatic
  | isFinal
  | isSynchronized
  | isBridge
  | isVarargs
  | isNative
  | isAbstract
  | isStrict
  | isSynthetic
  deriving DecidableEq, Repr

namespace MethodFlag

def all : List MethodFlag :=
  [.isPublic, .isPrivate, .isProtected, .isStatic, .isFinal, .isSynchronized,
    .isBridge, .isVarargs, .isNative, .isAbstract, .isStrict, .isSynthetic]

def mask : MethodFlag → UInt16
  | .isPublic => 0x0001
  | .isPrivate => 0x0002
  | .isProtected => 0x0004
  | .isStatic => 0x0008
  | .isFinal => 0x0010
  | .isSynchronized => 0x0020
  | .isBridge => 0x0040
  | .isVarargs => 0x0080
  | .isNative => 0x0100
  | .isAbstract => 0x0400
  | .isStrict => 0x0800
  | .isSynthetic => 0x1000

end MethodFlag

structure MethodFlags where
  bits : UInt16
  deriving DecidableEq, Repr

inductive AccessLevel
  | everyone
  | subclasses
  | owner
  | package
  deriving DecidableEq, Repr

namespace MethodFlags

def knownBits : UInt16 := 0x1DFF

/-- Drops the bits without a meaning. -/
def ofRaw (raw : UInt16) : MethodFlags :=
  ⟨raw &&& knownBits⟩

def publicOnly : MethodFlags := ⟨MethodFlag.isPublic.mask⟩

def has (flags : MethodFlags) (flag : MethodFlag) : Bool :=
  flags.bits &&& flag.mask = flag.mask

def toList (flags : MethodFlags) : List MethodFlag :=
  MethodFlag.all.filter flags.has

def isStub (flags : MethodFlags) : Bool :=
  flags.has .isBridge && flags.has .isSynthetic

/-- The widest access that a flag grants. -/
def level (flags : MethodFlags) : AccessLevel :=
  if flags.has .isPublic then .everyone
  else if flags.has .isProtected then .subclasses
  else if flags.has .isPrivate then .owner
  else .package

end MethodFlags

/-- The modifier that source code uses for a level of access. -/
def AccessLevel.keyword : AccessLevel → String
  | .everyone => "public"
  | .subclasses => "protected"
  | .owner => "private"
  | .package => ""

end Forwarding
