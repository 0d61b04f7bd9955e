import Forwarding.Bytes.Cursor
import Forwarding.Descriptor.Parser
import Forwarding.Proofs.Outcome

/-!
# Reading descriptors byte by byte

A descriptor can be read in the bytes of its text: one byte is looked at and passed at a time,
and what an error or a class name quotes is sliced out of the text between two positions.  A
slice is only there if both positions are boundaries between characters, and a position in an
error is one that the parser has kept.  A parser may start anywhere, so it can be used again
where it stopped.
-/

namespace Forwarding.Descriptor

/-- The part of a text between two positions in its bytes, if it can be sliced out. -/
def slice? (text : String) (first last : Nat) : Option String :=
  if h : (⟨first⟩ : String.Pos.Raw).IsValid text ∧ (⟨last⟩ : String.Pos.Raw).IsValid text ∧
      first ≤ last then
    some (text.extract ⟨⟨first⟩, h.1⟩ ⟨⟨last⟩, h.2.1⟩)
  else none

/-- Why a parser of bytes gives no result. -/
inductive Stop
  | failed (error : Error)
  | panicked
  deriving DecidableEq, Repr

abbrev ByteParser := EStateM Stop Cursor

namespace ByteParser

variable {α : Type}

/-! ## Looking and passing -/

def peek : ByteParser (Option UInt8) := do
  return (← get).peek.toOption

def position : ByteParser Nat := do
  return (← get).position

def bump : ByteParser Unit := fun c =>
  match c.advanceBy 1 with
  | .ok c' => .ok () c'
  | .error error => .error (.failed error) c

def refuse (position : Nat) (fault : Fault) : ByteParser α :=
  throw (.failed (.malformedDescriptor ⟨position, fault⟩))

def slice (text : String) (first last : Nat) : ByteParser String :=
  match slice? text first last with
  | some part => pure part
  | none => throw .panicked

/-! ## Progress -/

/-- Whether a parser never goes back when it succeeds. -/
def Keeps (parser : ByteParser α) : Prop :=
  ∀ ⦃c value c'⦄, parser c = .ok value c' → c'.remaining ≤ c.remaining

/-- Whether a parser passes a byte when it succeeds. -/
def Advances (parser : ByteParser α) : Prop :=
  ∀ ⦃c value c'⦄, parser c = .ok value c' → c'.remaining < c.remaining

variable {β : Type} {parser : ByteParser α} {next : α → ByteParser β}

theorem Advances.keeps (hparser : Advances parser) : Keeps parser := by
  intro c value c' hvalue
  exact Nat.le_of_lt (hparser hvalue)

theorem Advances.bind (hparser : Advances parser) (hnext : ∀ value, Keeps (next value)) :
    Advances (parser >>= next) := by
  intro c value c' hvalue
  obtain ⟨first, c₁, hfirst, hrest⟩ := bind_eq_ok.mp hvalue
  exact Nat.lt_of_le_of_lt (hnext first hrest) (hparser hfirst)

theorem Keeps.bind_advances (hparser : Keeps parser) (hnext : ∀ value, Advances (next value)) :
    Advances (parser >>= next) := by
  intro c value c' hvalue
  obtain ⟨first, c₁, hfirst, hrest⟩ := bind_eq_ok.mp hvalue
  exact Nat.lt_of_lt_of_le (hnext first hrest) (hparser hfirst)

theorem Keeps.bind (hparser : Keeps parser) (hnext : ∀ value, Keeps (next value)) :
    Keeps (parser >>= next) := by
  intro c value c' hvalue
  obtain ⟨first, c₁, hfirst, hrest⟩ := bind_eq_ok.mp hvalue
  exact Nat.le_trans (hnext first hrest) (hparser hfirst)

theorem keeps_pure (value : α) : Keeps (pure value) := by
  rintro c _ _ ⟨⟩
  exact Nat.le_refl _

theorem keeps_peek : Keeps peek := by
  rintro c _ _ ⟨⟩
  exact Nat.le_refl _

theorem keeps_position : Keeps position := by
  rintro c _ _ ⟨⟩
  exact Nat.le_refl _

theorem advances_refuse (position : Nat) (fault : Fault) :
    Advances (refuse position fault : ByteParser α) := by
  rintro c _ _ ⟨⟩

theorem keeps_slice (text : String) (first last : Nat) : Keeps (slice text first last) := by
  unfold slice
  split
  next part _ => exact keeps_pure part
  next => rintro c _ _ ⟨⟩

theorem advances_bump : Advances bump := by
  intro c _ c' hbump
  unfold bump Cursor.advanceBy at hbump
  split at hbump
  next hnext =>
    split at hnext
    next hfits =>
      cases hnext
      cases hbump
      change c.data.size - (c.position + 1) < c.data.size - c.position
      omega
    next => cases hnext
  next => cases hbump

/-! ## Types -/

/-- What the next byte says in a class name: that the name ends, or where the segment begins
to which the byte behind it belongs. -/
def nameByte (start segment position : Nat) : Option UInt8 → Except Fault (Option Nat)
  | none => .error .unterminatedClassName
  | some byte =>
      if byte = ';'.toUInt8 then
        if position = start then .error .emptyClassName
        else if position = segment then .error .emptySegment
        else .ok none
      else if byte = '/'.toUInt8 then
        if position = segment then .error .emptySegment else .ok (some (position + 1))
      else if byte = '.'.toUInt8 ∨ byte = '['.toUInt8 then
        .error (.illegalInClassName (Char.ofNat byte.toNat))
      else .ok (some segment)

/-- Reads a class name and the semicolon behind it. -/
def className (text : String) (start segment : Nat) : ByteParser String := fun c =>
  match nameByte start segment c.position c.peek.toOption with
  | .error fault => refuse c.position fault c
  | .ok none => (do bump; return dotted (← slice text start c.position)) c
  | .ok (some segment) =>
      match _hbump : bump c with
      | .ok () c' => className text start segment c'
      | .error stop c' => .error stop c'
termination_by c => c.remaining
decreasing_by exact advances_bump _hbump

def element (text : String) (dimensions : Nat) : ByteParser FieldType := do
  match ← peek with
  | none => refuse (← position) .typeExpected
  | some byte =>
      if byte = 'L'.toUInt8 then
        bump
        let start ← position
        return ⟨dimensions, .object (← className text start start)⟩
      else if byte = 'V'.toUInt8 then refuse (← position) .misplacedVoid
      else
        match BaseType.ofCode? (Char.ofNat byte.toNat) with
        | some base =>
            bump
            return ⟨dimensions, .base base⟩
        | none => refuse (← position) (.unknownCode byte)

def fieldTypeFrom (text : String) (dimensions : Nat) : ByteParser FieldType := do
  if (← peek) = some '['.toUInt8 then
    if dimensions < maxDimensions then
      bump
      fieldTypeFrom text (dimensions + 1)
    else refuse (← position) .tooManyDimensions
  else element text dimensions
termination_by maxDimensions - dimensions

def fieldType (text : String) : ByteParser FieldType :=
  fieldTypeFrom text 0

theorem advances_className (text : String) (start segment : Nat) :
    Advances (className text start segment) := by
  intro c name c' hname
  fun_induction className text start segment c with
  | case1 => cases hname
  | case2 segment c hbyte =>
      refine Advances.bind advances_bump (fun _ => ?_) hname
      exact (keeps_slice text start c.position).bind fun part => keeps_pure (dotted part)
  | case3 segment c segment' hbyte c₁ hbump ih =>
      exact Nat.lt_trans (ih hname) (advances_bump hbump)
  | case4 => cases hname

theorem advances_element (text : String) (dimensions : Nat) :
    Advances (element text dimensions) := by
  refine keeps_peek.bind_advances fun next => ?_
  cases next with
  | none => exact keeps_position.bind_advances fun _ => advances_refuse _ _
  | some byte =>
      dsimp only
      split
      next =>
        refine advances_bump.bind fun _ => keeps_position.bind fun start => ?_
        exact ((advances_className text start start).bind fun _ => keeps_pure _).keeps
      next =>
        split
        next => exact keeps_position.bind_advances fun _ => advances_refuse _ _
        next =>
          split
          next => exact advances_bump.bind fun _ => keeps_pure _
          next => exact keeps_position.bind_advances fun _ => advances_refuse _ _

theorem advances_fieldTypeFrom (text : String) (dimensions : Nat) :
    Advances (fieldTypeFrom text dimensions) := by
  fun_induction fieldTypeFrom text dimensions with
  | case1 dimensions ih =>
      refine keeps_peek.bind_advances fun next => ?_
      split
      next =>
        split
        next hfew => exact advances_bump.bind fun _ => (ih hfew).keeps
        next => exact keeps_position.bind_advances fun _ => advances_refuse _ _
      next => exact advances_element text dimensions

/-! ## Methods -/

/-- Reads types up to the closing parenthesis, behind others that are given backwards. -/
def parameters (text : String) (backwards : List FieldType) : ByteParser (List FieldType) :=
  fun c =>
    match c.peek.toOption with
    | none => refuse c.position .unterminatedParameters c
    | some byte =>
        if byte = ')'.toUInt8 then (do bump; return backwards.reverse) c
        else
          match _htype : fieldType text c with
          | .ok t c' => parameters text (t :: backwards) c'
          | .error stop c' => .error stop c'
termination_by c => c.remaining
decreasing_by exact advances_fieldTypeFrom text 0 _htype

def result (text : String) : ByteParser ReturnType := do
  match ← peek with
  | none => refuse (← position) .missingResult
  | some byte =>
      if byte = 'V'.toUInt8 then
        bump
        return none
      else return some (← fieldType text)

def signature (text : String) : ByteParser MethodDescriptor := do
  if (← peek) = some '('.toUInt8 then
    bump
    let parameters ← parameters text []
    return ⟨parameters, ← result text⟩
  else refuse (← position) .openingExpected

/-! ## Whole descriptors -/

def expectEnd (text : String) : ByteParser Unit := do
  if (← get).hasMore then
    refuse (← position) (.trailing (← slice text (← position) text.utf8ByteSize))

def toEnd (text : String) (parser : ByteParser α) : ByteParser α := do
  let value ← parser
  expectEnd text
  return value

def field (text : String) : ByteParser FieldType :=
  toEnd text (fieldType text)

def method (text : String) : ByteParser MethodDescriptor :=
  toEnd text (signature text)

end ByteParser

end Forwarding.Descriptor
