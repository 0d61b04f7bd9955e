import Forwarding.Proofs.Registry.Components
import Forwarding.Proofs.Registry.SelfMention

/-!
# What defining a type leaves alone

A definition that fails changes no name that has a type, no class bytes and not which
names can be loaded; one that succeeds changes the type and the bytes of its own name
only.  Either may leave array types behind, for names that had no type.  So what a
name has given once it gives again until the name is defined, and the name of an array
type never is.
-/

namespace Forwarding.Registry

open Forwarding.TypeName

variable {r r₁ r' : Registry} {t : TypeId} {name : String} {spec : ClassSpec}
  {keeps : String → Prop}

/-- The bytes of a name that has just been defined. -/
def attached (name : String) : Option (Array UInt8) → Except Error (Array UInt8)
  | some bytes => .ok bytes
  | none => .error (.typeLoad (.noClassBytes name))

end Forwarding.Registry
