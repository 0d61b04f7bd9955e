import Std.Data.HashMap
import Forwarding.Descriptor.FieldType
import Forwarding.Types.Hierarchy

/-!
# The registry

A registry keeps every definition that was ever made, in the order of their
making; the identity of a type is its place in that order.  A name refers to
its latest definition.  Class bytes are kept by name and go when the name is
defined anew.
-/

namespace Forwarding

/-- The identity of a type: how many were made before it. -/
structure TypeId where
  index : Nat
  deriving DecidableEq, Hashable, Repr

inductive Flavor
  | primitive (base : BaseType)
  | void
  | classType
  | interfaceType
  | array (component : TypeId)
  deriving DecidableEq, Repr

def Flavor.isPrimitive : Flavor → Bool
  | .primitive _ => true
  | .void => true
  | _ => false

structure Definition where
  name : String
  flavor : Flavor
  ancestor? : Option TypeId
  methods : List (Declaration TypeId)
  annotations : List Annotation

def Definition.leaf (name : String) (flavor : Flavor) : Definition :=
  ⟨name, flavor, none, [], []⟩

structure Registry where
  definitions : Array Definition
  current : Std.HashMap String TypeId
  classBytes : Std.HashMap String (Array UInt8)
  root : TypeId

namespace Registry

def get? (r : Registry) (name : String) : Option TypeId :=
  r.current[name]?

def contains (r : Registry) (name : String) : Bool :=
  r.current.contains name

def size (r : Registry) : Nat :=
  r.current.size

def isEmpty (r : Registry) : Bool :=
  r.current.isEmpty

def definition? (r : Registry) (t : TypeId) : Option Definition :=
  r.definitions[t.index]?

def nameOf (r : Registry) (t : TypeId) : String :=
  ((r.definition? t).map Definition.name).getD ""

def ancestor? (r : Registry) (t : TypeId) : Option TypeId :=
  (r.definition? t).bind Definition.ancestor?

def nextId (r : Registry) : TypeId :=
  ⟨r.definitions.size⟩

/-- Makes a definition the current one of its name. -/
def insert (r : Registry) (d : Definition) : Registry :=
  let id := r.nextId
  { r with
    definitions := r.definitions.push d
    current := r.current.insert d.name id
    classBytes := r.classBytes.erase d.name }

/-! ## After a definition -/

theorem get?_insert (r : Registry) (d : Definition) (name : String) :
    (r.insert d).get? name = if d.name = name then some r.nextId else r.get? name := by
  simp [insert, get?, Std.HashMap.getElem?_insert]

/-- A definition keeps its identity for good. -/
theorem definition?_insert (r : Registry) (d : Definition) (t : TypeId) :
    (r.insert d).definition? t = if t = r.nextId then some d else r.definition? t := by
  obtain ⟨index⟩ := t
  simp only [definition?, insert, nextId, TypeId.mk.injEq]
  rw [Array.getElem?_push]

@[simp] theorem root_insert (r : Registry) (d : Definition) :
    (r.insert d).root = r.root := rfl

/-! ## The first registry -/

/-- The definitions that every registry starts with; the root is the last. -/
def builtin : List Definition :=
  BaseType.all.map (fun b => .leaf b.name (.primitive b)) ++
    [.leaf voidName .void, .leaf rootTypeName .classType]

def initial : Registry :=
  builtin.foldl insert ⟨#[], ∅, ∅, ⟨builtin.length - 1⟩⟩

/-! ## Class bytes -/

/-- The bytes that are kept for a name. -/
def bytesOf (r : Registry) (name : String) : Except Error (Array UInt8) :=
  match r.classBytes[name]? with
  | some bytes => .ok bytes
  | none => .error (.typeLoad (.noClassBytes name))

def setBytes (r : Registry) (name : String) (bytes : Array UInt8) : Registry :=
  { r with classBytes := r.classBytes.insert name bytes }

/-- Keeps bytes for a name that has a definition. -/
def registerBytes (name : String) (bytes : Array UInt8) :
    EStateM Error Registry Unit := do
  if (← get).contains name then modify (·.setBytes name bytes)
  else throw (.typeLoad (.unknown name))

theorem bytesOf_setBytes (r : Registry) (name other : String)
    (bytes : Array UInt8) :
    (r.setBytes name bytes).bytesOf other =
      if name = other then .ok bytes else r.bytesOf other := by
  by_cases h : name = other <;>
    simp [bytesOf, setBytes, Std.HashMap.getElem?_insert, h]

theorem bytesOf_insert (r : Registry) (d : Definition) (name : String) :
    (r.insert d).bytesOf name =
      if d.name = name then .error (.typeLoad (.noClassBytes name))
      else r.bytesOf name := by
  by_cases h : d.name = name <;>
    simp [bytesOf, insert, Std.HashMap.getElem?_erase, h]

end Registry

end Forwarding
