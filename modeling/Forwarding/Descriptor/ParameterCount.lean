import Forwarding.Descriptor.BaseType
import Forwarding.Descriptor.Parser

/-!
# Counting parameters

The number of parameters can be told without building the types.  This scanner
stops at the closing parenthesis, takes any characters but a semicolon for a
class name, and ignores what comes after the parameter list.
-/

namespace Forwarding.Descriptor

inductive CountState
  | opening
  | parameter (count brackets : Nat)
  | className (count : Nat) (empty : Bool)
  | complete (count : Nat)
  deriving DecidableEq, Repr

namespace CountState

def stepParameter (count brackets : Nat) (c : Char) : Except Fault CountState :=
  if c = ')' then
    if brackets = 0 then .ok (.complete count) else .error .bareDimensions
  else if c = '[' then
    if brackets < maxDimensions then .ok (.parameter count (brackets + 1))
    else .error .tooManyDimensions
  else if c = 'L' then .ok (.className count true)
  else if (BaseType.ofCode? c).isSome then .ok (.parameter (count + 1) 0)
  else .error (.unknownCode (TypeState.leadByte c))

def stepClassName (count : Nat) (empty : Bool) (c : Char) :
    Except Fault CountState :=
  if c = ';' then
    if empty then .error .emptyClassName else .ok (.parameter (count + 1) 0)
  else .ok (.className count false)

def step : CountState → Char → Except Fault CountState
  | .opening, c =>
      if c = '(' then .ok (.parameter 0 0) else .error .openingExpected
  | .parameter count brackets, c => stepParameter count brackets c
  | .className count empty, c => stepClassName count empty c
  | .complete count, _ => .ok (.complete count)

def atEnd : CountState → Fault
  | .opening => .openingExpected
  | .className _ _ => .unterminatedClassName
  | _ => .unterminatedParameters

def result? : CountState → Option Nat
  | .complete count => some count
  | _ => none

end CountState

def countScanner : Scanner CountState Nat :=
  ⟨CountState.result?, CountState.atEnd, CountState.step⟩

/-- The number of parameters that the descriptor's parameter list holds. -/
def parameterCount (descriptor : String) : Except Failure Nat :=
  located (countScanner.run .opening 0 descriptor.toList)

end Forwarding.Descriptor
