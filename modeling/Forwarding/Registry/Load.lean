import Forwarding.Registry.Basic

/-!
# Loading types

A name without a definition can still be loaded when it names an array over a
type that can be loaded.  The array types on the way are made from the inside
out and stay, whatever happens to them afterwards.  There are no arrays of
`void`.
-/

namespace Forwarding.Registry

/-- An array type extends the root that the registry started with. -/
def arrayDefinition (name : String) (component root : TypeId) : Definition :=
  ⟨name, .array component, some root, [], []⟩

def make (d : Definition) : EStateM Error Registry TypeId := do
  let id := (← get).nextId
  modify (·.insert d)
  pure id

/-- Loads the array type over an element with the given number of
dimensions. -/
def loadArray (element : String) : Nat → EStateM Error Registry TypeId
  | 0 => do
      match (← get).get? element with
      | some t => pure t
      | none => throw (.typeLoad (.unknown element))
  | dimensions + 1 => do
      let name := element ++ arraySuffix (dimensions + 1)
      match (← get).get? name with
      | some t => pure t
      | none =>
          if dimensions = 0 ∧ element = voidName then
            throw (.typeLoad (.unknown name))
          else
            let component ← loadArray element dimensions
            make (arrayDefinition name component (← get).root)

def load (name : String) : EStateM Error Registry TypeId :=
  let (dimensions, element) := TypeName.split name
  loadArray element dimensions

end Forwarding.Registry
