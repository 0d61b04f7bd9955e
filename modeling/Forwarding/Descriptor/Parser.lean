import Forwarding.Descriptor.FieldType
import Forwarding.Descriptor.Scanner

/-!
# Reading descriptors

The grammar is `fieldType = '['* (base | 'L' name ';')` with at most 255
brackets, and `'(' fieldType* ')' (fieldType | 'V')` for methods.  A class name
consists of non-empty segments between slashes and holds no dot and no bracket.
Both scanners share the states for a single type.
-/

namespace Forwarding.Descriptor

/-! ## One type -/

/-- How much of a type has been read.  The characters of a class name are kept
backwards, with a dot for each slash. -/
inductive TypeState
  | brackets (count : Nat)
  | className (dimensions : Nat) (backwards : List Char)
  | complete (type : FieldType)
  deriving DecidableEq, Repr

namespace TypeState

def start : TypeState := .brackets 0

/-- The byte that a character starts with in UTF-8. -/
def leadByte (c : Char) : UInt8 :=
  (String.utf8EncodeChar c).headD 0

def stepBrackets (count : Nat) (c : Char) : Except Fault TypeState :=
  if c = '[' then
    if count < maxDimensions then .ok (.brackets (count + 1))
    else .error .tooManyDimensions
  else if c = 'L' then .ok (.className count [])
  else if c = 'V' then .error .misplacedVoid
  else
    match BaseType.ofCode? c with
    | some base => .ok (.complete ⟨count, .base base⟩)
    | none => .error (.unknownCode (leadByte c))

/-- A segment is empty at the start of a name and behind a dot. -/
def segmentEmpty (backwards : List Char) : Bool :=
  backwards.isEmpty || backwards.head? == some '.'

def stepClassName (dimensions : Nat) (backwards : List Char) (c : Char) :
    Except Fault TypeState :=
  if c = ';' then
    if backwards.isEmpty then .error .emptyClassName
    else if segmentEmpty backwards then .error .emptySegment
    else .ok (.complete ⟨dimensions, .object (String.ofList backwards.reverse)⟩)
  else if c = '/' then
    if segmentEmpty backwards then .error .emptySegment
    else .ok (.className dimensions ('.' :: backwards))
  else if c = '.' ∨ c = '[' then .error (.illegalInClassName c)
  else .ok (.className dimensions (c :: backwards))

def step : TypeState → Char → Except Fault TypeState
  | .brackets count, c => stepBrackets count c
  | .className dimensions backwards, c => stepClassName dimensions backwards c
  | .complete type, _ => .ok (.complete type)

def atEnd : TypeState → Fault
  | .className _ _ => .unterminatedClassName
  | _ => .typeExpected

def result? : TypeState → Option FieldType
  | .complete type => some type
  | _ => none

end TypeState

def typeScanner : Scanner TypeState FieldType :=
  ⟨TypeState.result?, TypeState.atEnd, TypeState.step⟩

/-! ## A method -/

/-- How much of a method descriptor has been read.  The parameters that are
complete are kept backwards. -/
inductive MethodState
  | opening
  | parameter (backwards : List FieldType) (type : TypeState)
  | result (backwards : List FieldType) (type : TypeState)
  | complete (descriptor : MethodDescriptor)
  deriving DecidableEq, Repr

namespace MethodState

def stepParameter (backwards : List FieldType) (type : TypeState) (c : Char) :
    Except Fault MethodState :=
  if type = .start ∧ c = ')' then .ok (.result backwards .start)
  else
    match type.step c with
    | .ok (.complete t) => .ok (.parameter (t :: backwards) .start)
    | .ok next => .ok (.parameter backwards next)
    | .error fault => .error fault

def stepResult (backwards : List FieldType) (type : TypeState) (c : Char) :
    Except Fault MethodState :=
  if type = .start ∧ c = 'V' then .ok (.complete ⟨backwards.reverse, none⟩)
  else
    match type.step c with
    | .ok (.complete t) => .ok (.complete ⟨backwards.reverse, some t⟩)
    | .ok next => .ok (.result backwards next)
    | .error fault => .error fault

def step : MethodState → Char → Except Fault MethodState
  | .opening, c =>
      if c = '(' then .ok (.parameter [] .start) else .error .openingExpected
  | .parameter backwards type, c => stepParameter backwards type c
  | .result backwards type, c => stepResult backwards type c
  | .complete descriptor, _ => .ok (.complete descriptor)

def atEnd : MethodState → Fault
  | .opening => .openingExpected
  | .parameter _ type =>
      if type = .start then .unterminatedParameters else type.atEnd
  | .result _ type => if type = .start then .missingResult else type.atEnd
  | .complete _ => .typeExpected

def result? : MethodState → Option MethodDescriptor
  | .complete descriptor => some descriptor
  | _ => none

end MethodState

def methodScanner : Scanner MethodState MethodDescriptor :=
  ⟨MethodState.result?, MethodState.atEnd, MethodState.step⟩

/-! ## Whole descriptors -/

/-- Reads a field descriptor up to the end of the input.  A failure leaves the
input in front of the character that did not fit. -/
def Input.readField (input : Input) : Except Fault FieldType × Input :=
  typeScanner.runToEnd .start input

/-- Reads a method descriptor up to the end of the input. -/
def Input.readMethod (input : Input) : Except Fault MethodDescriptor × Input :=
  methodScanner.runToEnd .opening input

def parseField (descriptor : String) : Except Failure FieldType :=
  located (Input.ofString descriptor).readField

def parseMethod (descriptor : String) : Except Failure MethodDescriptor :=
  located (Input.ofString descriptor).readMethod

end Forwarding.Descriptor
