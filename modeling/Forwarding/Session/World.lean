import Forwarding.Registry.Define
import Forwarding.Registry.Liveness
import Forwarding.Resolver.Basic

/-!
# Worlds

A registry together with types that a host program provides itself.  Host
types are not registered under their names, last for good, and may have any
ancestor, even themselves.
-/

namespace Forwarding

inductive TypeRef
  | registered (id : TypeId)
  | hosted (index : Nat)
  deriving DecidableEq, Hashable, Repr

def TypeRef.registered? : TypeRef → Option TypeId
  | .registered id => some id
  | .hosted _ => none

structure HostType where
  name : String
  ancestor? : Option TypeRef
  methods : List (Method TypeRef)
  annotations : List Annotation

/-- The types that a host type keeps alive. -/
def HostType.mentioned (h : HostType) : List TypeRef :=
  h.ancestor?.toList ++ h.methods.flatMap Method.mentioned

structure World where
  registry : Registry
  hosts : Array HostType
  /-- The registered types that are held from outside the registry. -/
  held : List TypeId

namespace World

def nameOf (w : World) : TypeRef → String
  | .registered id => w.registry.nameOf id
  | .hosted index => (w.hosts[index]?.map HostType.name).getD ""

def ancestor? (w : World) : TypeRef → Option TypeRef
  | .registered id => (w.registry.ancestor? id).map .registered
  | .hosted index => w.hosts[index]?.bind HostType.ancestor?

def methods (w : World) : TypeRef → List (Method TypeRef)
  | .registered id =>
      (w.registry.declaredMethods w.held id).map (Method.map .registered)
  | .hosted index => (w.hosts[index]?.map HostType.methods).getD []

def annotations (w : World) : TypeRef → List Annotation
  | .registered id => (w.registry.view w.held).annotations id
  | .hosted index => (w.hosts[index]?.map HostType.annotations).getD []

def isAlive (w : World) : TypeRef → Bool
  | .registered id => w.registry.isAlive w.held id
  | .hosted _ => true

def view (w : World) : TypeView TypeRef where
  name := w.nameOf
  ancestor? := w.ancestor?
  methods := w.methods
  annotations := w.annotations

def onRegistry {α : Type} (operation : EStateM Error Registry α) :
    EStateM Error World α := fun w =>
  match operation w.registry with
  | .ok value registry => .ok value { w with registry }
  | .error error registry => .error error { w with registry }

def load (name : String) : EStateM Error World TypeRef :=
  .registered <$> onRegistry (Registry.load name)

/-- The world as resolvers use it.  Class bytes are found by name, also those
for a host type. -/
def provider : Provider World TypeRef where
  view := view
  load := load
  classBytes w t := w.registry.bytesOf (w.nameOf t)

end World

end Forwarding
