import Forwarding.Resolver.Gate
import Forwarding.Session.Command

/-!
# The state of a session

A registry, host types and variables.  Variables keep the types and methods
alive that they hold, and so do the caches.
-/

namespace Forwarding

/-- Values by the names of the variables that hold them. -/
abbrev Bindings (α : Type) := List (String × α)

namespace Bindings

variable {α : Type}

def get? (b : Bindings α) (name : String) : Option α :=
  b.lookup name

def drop (b : Bindings α) (name : String) : Bindings α :=
  b.filter (·.1 != name)

def set (b : Bindings α) (name : String) (value : α) : Bindings α :=
  (name, value) :: b.drop name

def values (b : Bindings α) : List α :=
  b.map Prod.snd

end Bindings

structure Session where
  registry : Registry
  hosts : Array HostType
  /-- The host types by the variables that they were first kept in. -/
  hostNames : Bindings Nat
  types : Bindings TypeRef
  methods : Bindings (Method TypeRef)
  /-- References that keep nothing alive. -/
  weak : Bindings TypeRef
  resolvers : Bindings (Resolver TypeRef)
  caches : Bindings (StubCache TypeRef)

namespace Session

def start : Session := ⟨.initial, #[], [], [], [], [], [], []⟩

def cachedTypes (c : StubCache TypeRef) : List TypeRef :=
  c.entries.flatMap fun (key, method) =>
    key.owner :: key.shape.parameters ++ method.mentioned

/-- The types that are held from outside the registry. -/
def heldTypes (s : Session) : List TypeRef :=
  s.types.values ++ s.methods.values.flatMap Method.mentioned ++
    s.hosts.toList.flatMap HostType.mentioned ++
    s.resolvers.values.flatMap (fun r => cachedTypes r.cache) ++
    s.caches.values.flatMap cachedTypes

def world (s : Session) : World :=
  ⟨s.registry, s.hosts, s.heldTypes.filterMap TypeRef.registered?⟩

def nameOf (s : Session) (t : TypeRef) : String :=
  s.world.nameOf t

/-- The cache of a resolver or one of its own. -/
def cacheOf? (s : Session) (name : String) : Option (StubCache TypeRef) :=
  ((s.resolvers.get? name).map Resolver.cache) <|> s.caches.get? name

def setCache (s : Session) (name : String) (cache : StubCache TypeRef) : Session :=
  match s.resolvers.get? name with
  | some r => { s with resolvers := s.resolvers.set name { r with cache } }
  | none => { s with caches := s.caches.set name cache }

end Session

end Forwarding
