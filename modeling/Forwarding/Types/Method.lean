import Forwarding.ClassFile.MethodFlags
import Forwarding.Types.Annotation

/-!
# Methods

Methods over any kind of type identity.  A shape is what a caller names when
it looks for a method: the name and the identities of the parameter types.
The result type is not part of it, so one type may declare several methods of
one shape.
-/

namespace Forwarding

structure Shape (τ : Type) where
  name : String
  parameters : List τ
  deriving DecidableEq, Repr

/-- A method as its owner declares it. -/
structure Declaration (τ : Type) where
  shape : Shape τ
  result : τ
  flags : MethodFlags
  annotations : List Annotation

structure Method (τ : Type) extends Declaration τ where
  owner : τ

/-- What a stub is remembered by: its owner and its shape. -/
structure StubKey (τ : Type) where
  owner : τ
  shape : Shape τ
  deriving DecidableEq, Repr

variable {τ υ : Type}

/-! ## Text -/

def Shape.display (nameOf : τ → String) (s : Shape τ) : String :=
  s.name ++ "(" ++ String.intercalate ", " (s.parameters.map nameOf) ++ ")"

def StubKey.display (nameOf : τ → String) (k : StubKey τ) : String :=
  nameOf k.owner ++ "." ++ k.shape.display nameOf

namespace Method

def key (m : Method τ) : StubKey τ :=
  ⟨m.owner, m.shape⟩

def display (nameOf : τ → String) (m : Method τ) : String :=
  m.key.display nameOf

/-! ## Properties -/

def isStub (m : Method τ) : Bool :=
  m.flags.isStub

/-- Whether two methods are one: the flags and the annotations do not count. -/
def same [DecidableEq τ] (a b : Method τ) : Bool :=
  a.owner = b.owner && a.shape = b.shape && a.result = b.result

/-- The types that the method mentions. -/
def mentioned (m : Method τ) : List τ :=
  m.owner :: m.shape.parameters ++ [m.result]

/-- The method that a lookup prefers: the first that is no stub, or else the
first at all. -/
def preferred? (methods : List (Method τ)) : Option (Method τ) :=
  methods.find? (!·.isStub) <|> methods.head?

end Method

/-! ## Change of identities -/

def Shape.map (f : τ → υ) (s : Shape τ) : Shape υ :=
  ⟨s.name, s.parameters.map f⟩

def Method.map (f : τ → υ) (m : Method τ) : Method υ where
  owner := f m.owner
  shape := m.shape.map f
  result := f m.result
  flags := m.flags
  annotations := m.annotations

end Forwarding
