/-!
# Limits

How far a resolver goes before it gives up: the number of types that one
lookup may visit, and the number of stubs that may forward to each other.
-/

namespace Forwarding

structure Limits where
  hierarchyDepth : Nat
  stubChain : Nat
  deriving DecidableEq, Repr

namespace Limits

def standard : Limits := ⟨1000, 8⟩

def strict : Limits := ⟨256, 1⟩

def permissive : Limits := ⟨65536, 64⟩

end Limits

/-- The number of types that a lookup outside a resolver may visit. -/
def defaultDepth : Nat := Limits.standard.hierarchyDepth

end Forwarding
