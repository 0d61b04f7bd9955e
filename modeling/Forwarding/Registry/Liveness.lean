import Forwarding.Registry.Basic

/-!
# Liveness

Signatures and array types do not keep the types alive that they mention.  A
type is alive as long as it is the root, the current definition of its name or
held from outside, or is the ancestor of a type that is alive.  A method is
listed only while all the types in its signature are.
-/

namespace Forwarding.Registry

/-- Whether something other than a descendant keeps the type alive. -/
def isPinned (r : Registry) (held : List TypeId) (t : TypeId) : Bool :=
  r.get? (r.nameOf t) = some t || t = r.root || t ∈ held

/-- For every definition in turn, whether it is the type or descends from it.
One pass suffices, because an ancestor is defined before its descendants. -/
def descent (r : Registry) (t : TypeId) : Array Bool :=
  r.definitions.foldl
    (fun marks d =>
      marks.push <| marks.size = t.index ||
        d.ancestor?.any fun parent => marks[parent.index]?.getD false)
    #[]

def isAlive (r : Registry) (held : List TypeId) (t : TypeId) : Bool :=
  r.isPinned held t ||
    (r.descent t).toList.zipIdx.any fun (descends, index) =>
      descends && r.isPinned held ⟨index⟩

def isListed (r : Registry) (held : List TypeId) (d : Declaration TypeId) : Bool :=
  d.shape.parameters.all (r.isAlive held) && r.isAlive held d.result

def declaredMethods (r : Registry) (held : List TypeId) (t : TypeId) :
    List (Method TypeId) :=
  match r.definition? t with
  | none => []
  | some d =>
      (d.methods.filter (r.isListed held)).map fun m => { m with owner := t }

/-- The component of an array type, while it is alive. -/
def component? (r : Registry) (held : List TypeId) : Flavor → Option TypeId
  | .array component => if r.isAlive held component then some component else none
  | _ => none

/-- The types of a registry as a holder of some of them sees them. -/
def view (r : Registry) (held : List TypeId) : TypeView TypeId where
  name := r.nameOf
  ancestor? := r.ancestor?
  methods := r.declaredMethods held
  annotations t := ((r.definition? t).map Definition.annotations).getD []

end Forwarding.Registry
