/-!
# Scanners

A scanner reads a descriptor one character at a time.  Its states say what has
been read so far; a state either holds a result or waits for more.  Whatever a
scanner refuses, it refuses at the first character that no longer fits, and it
stops in front of that character.  Positions are counted in bytes of UTF-8.
-/

namespace Forwarding.Descriptor

inductive Fault
  | openingExpected
  | unterminatedParameters
  | missingResult
  | typeExpected
  | misplacedVoid
  | unknownCode (lead : UInt8)
  | tooManyDimensions
  | bareDimensions
  | emptyClassName
  | emptySegment
  | unterminatedClassName
  | illegalInClassName (c : Char)
  | trailing (rest : String)
  deriving DecidableEq, Repr

/-- The greatest number of array dimensions that a descriptor may have. -/
def maxDimensions : Nat := 255

private def quotedChar (c : Char) : String :=
  "'" ++ c.toString ++ "'"

/-- A byte that is no type code is shown as the character of that number. -/
def Fault.message : Fault → String
  | .openingExpected => "expected " ++ quotedChar '('
  | .unterminatedParameters =>
      "unterminated parameter list, expected " ++ quotedChar ')'
  | .missingResult => "missing return type"
  | .typeExpected => "expected a field type, found end of input"
  | .misplacedVoid => quotedChar 'V' ++ " is only valid as a return type"
  | .unknownCode lead =>
      "invalid type code " ++ quotedChar (Char.ofNat lead.toNat)
  | .tooManyDimensions =>
      "array type exceeds " ++ toString maxDimensions ++ " dimensions"
  | .bareDimensions => "array type without component"
  | .emptyClassName => "empty class name"
  | .emptySegment => "empty class name segment"
  | .unterminatedClassName =>
      "unterminated class name, expected " ++ quotedChar ';'
  | .illegalInClassName c =>
      "illegal character " ++ quotedChar c ++ " in class name"
  | .trailing rest => "unexpected trailing data '" ++ rest ++ "'"

structure Failure where
  position : Nat
  fault : Fault
  deriving DecidableEq, Repr

/-- What is left to read, and where it starts. -/
structure Input where
  position : Nat
  rest : List Char
  deriving DecidableEq, Repr

def Input.ofString (text : String) : Input :=
  ⟨0, text.toList⟩

structure Scanner (σ α : Type) where
  /-- The result, once the state holds one; nothing is read beyond it. -/
  result? : σ → Option α
  /-- What is missing when the input ends in this state. -/
  atEnd : σ → Fault
  step : σ → Char → Except Fault σ

namespace Scanner

variable {σ α : Type}

/-- Reads from a state until it holds a result, a character does not fit or
the input ends. -/
def run (scanner : Scanner σ α) :
    σ → Nat → List Char → Except Fault α × Input
  | state, position, [] =>
      match scanner.result? state with
      | some value => (.ok value, ⟨position, []⟩)
      | none => (.error (scanner.atEnd state), ⟨position, []⟩)
  | state, position, c :: rest =>
      match scanner.result? state with
      | some value => (.ok value, ⟨position, c :: rest⟩)
      | none =>
          match scanner.step state c with
          | .ok next => run scanner next (position + c.utf8Size) rest
          | .error fault => (.error fault, ⟨position, c :: rest⟩)

/-- Reads a result that must be followed by the end of the input. -/
def runToEnd (scanner : Scanner σ α) (start : σ) (input : Input) :
    Except Fault α × Input :=
  match scanner.run start input.position input.rest with
  | (.ok value, ⟨position, []⟩) => (.ok value, ⟨position, []⟩)
  | (.ok _, ⟨position, c :: rest⟩) =>
      (.error (.trailing (String.ofList (c :: rest))), ⟨position, c :: rest⟩)
  | (.error fault, stop) => (.error fault, stop)

end Scanner

/-- The result of reading, or the fault with the place where it stopped. -/
def located {α : Type} : Except Fault α × Input → Except Failure α
  | (.ok value, _) => .ok value
  | (.error fault, stop) => .error ⟨stop.position, fault⟩

end Forwarding.Descriptor
