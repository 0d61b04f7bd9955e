import Forwarding.Delegation
import Forwarding.Descriptor.Parser
import Forwarding.Resolver.Cache
import Forwarding.Resolver.Limits
import Forwarding.Types.Hierarchy

/-!
# The resolver

Looks methods up and follows forwarding stubs to the methods that they stand
for.  A stub's class bytes say which method it calls; that method is looked up
like any other and may be a stub again.  What a stub leads to is remembered;
failures are not.
-/

namespace Forwarding

/-- What a resolver needs to know about the world that types live in. -/
structure Provider (σ τ : Type) where
  view : σ → TypeView τ
  load : String → EStateM Error σ τ
  classBytes : σ → τ → Except Error (Array UInt8)

namespace Provider

variable {σ τ : Type}

/-- Lifts an outcome that leaves the world alone. -/
def lift {α : Type} : Except Error α → EStateM Error σ α
  | .ok value => pure value
  | .error error => throw error

def loadAll (p : Provider σ τ) : List String → EStateM Error σ (List τ)
  | [] => pure []
  | name :: rest => do
      let first ← p.load name
      let others ← p.loadAll rest
      pure (first :: others)

/-- Looks up the method that a delegation calls. -/
def callee [DecidableEq τ] (p : Provider σ τ) (depth : Nat) (d : Delegation) :
    EStateM Error σ (Method τ) := do
  let descriptor ← lift (Error.ofDescriptor (Descriptor.parseMethod d.descriptor))
  let owner ← p.load d.ownerType
  let parameters ← p.loadAll descriptor.parameterTypeNames
  let view := p.view (← get)
  match ← lift (view.findMethod depth owner ⟨d.name, parameters⟩) with
  | some method => pure method
  | none => throw (.targetNotFound (view.name owner) d.name)

def target [DecidableEq τ] (p : Provider σ τ) (depth : Nat) (stub : Method τ) :
    EStateM Error σ (Method τ) := do
  let bytes ← lift (p.classBytes (← get) stub.owner)
  let delegation ← lift
    (Delegation.find bytes stub.shape.name stub.shape.parameters.length)
  p.callee depth delegation

/-- Follows a stub for at most the given number of hops. -/
def follow [DecidableEq τ] (p : Provider σ τ) (limits : Limits) :
    Nat → Method τ → EStateM Error σ (Method τ)
  | 0, _ => throw (.stubChainLimit limits.stubChain)
  | hops + 1, stub => do
      let next ← p.target limits.hierarchyDepth stub
      if next.isStub then p.follow limits hops next else pure next

end Provider

structure Resolver (τ : Type) where
  limits : Limits
  cache : StubCache τ

/-- The world and what has been resolved in it so far. -/
structure Resolving (σ τ : Type) where
  world : σ
  cache : StubCache τ

namespace Resolver

variable {σ τ : Type} [DecidableEq τ]

/-- The method that a method stands for: itself, unless it is a stub. -/
def resolveMethod (p : Provider σ τ) (limits : Limits) (m : Method τ) :
    EStateM Error (Resolving σ τ) (Method τ) := fun s =>
  if m.isStub then
    match s.cache.get? m.key with
    | some known => .ok known s
    | none =>
        match p.follow limits limits.stubChain m s.world with
        | .ok found world => .ok found ⟨world, s.cache.insert m.key found⟩
        | .error source world =>
            .error (.stubResolution (m.display (p.view world).name) source)
              { s with world }
  else .ok m s

def resolve (p : Provider σ τ) (limits : Limits) (t : τ) (shape : Shape τ) :
    EStateM Error (Resolving σ τ) (Option (Method τ)) := do
  let view := p.view (← get).world
  match view.findMethod limits.hierarchyDepth t shape with
  | .error error => throw error
  | .ok none => pure none
  | .ok (some found) => some <$> resolveMethod p limits found

end Resolver

end Forwarding
