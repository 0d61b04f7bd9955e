import Forwarding.ClassFile.MethodTable
import Forwarding.Descriptor.Parser
import Forwarding.Registry.Load

/-!
# Defining types

A class or interface is defined from the names of its ancestor and of the
types in its signatures.  Everything is looked up before the definition is
made, so a definition that fails changes no name; at most it leaves array
types behind.  A signature that mentions the name being defined means the new
definition.
-/

namespace Forwarding

structure MethodSpec where
  name : String
  parameters : List String
  result : String
  flags : MethodFlags
  annotations : List Annotation

def MethodSpec.ofDescriptor (name descriptor : String) (flags : MethodFlags)
    (annotations : List Annotation) : Except Error MethodSpec :=
  (Error.ofDescriptor (Descriptor.parseMethod descriptor)).map fun m =>
    { name
      parameters := m.parameterTypeNames
      result := ReturnType.typeName m.result
      flags
      annotations }

structure ClassSpec where
  name : String
  isInterface : Bool
  /-- The root, when no other ancestor is named. -/
  parent : Option String
  methods : List MethodSpec
  annotations : List Annotation
  classBytes : Option (Array UInt8)

namespace Registry

/-- A name in a signature: the type being defined, or one that exists. -/
inductive Mention
  | self
  | other (t : TypeId)
  deriving DecidableEq, Repr

def Mention.resolve (self : TypeId) : Mention → TypeId
  | .self => self
  | .other t => t

/-- A method whose types have been looked up. -/
structure Signature where
  spec : MethodSpec
  parameters : List Mention
  result : Mention

def Signature.declare (self : TypeId) (s : Signature) : Declaration TypeId where
  shape := ⟨s.spec.name, s.parameters.map (Mention.resolve self)⟩
  result := s.result.resolve self
  flags := s.spec.flags
  annotations := s.spec.annotations

def mention (self name : String) : EStateM Error Registry Mention :=
  if name = self then pure .self else .other <$> load name

def mentions (self : String) : List String → EStateM Error Registry (List Mention)
  | [] => pure []
  | name :: rest => do
      let first ← mention self name
      let others ← mentions self rest
      pure (first :: others)

def signature (self : String) (spec : MethodSpec) :
    EStateM Error Registry Signature := do
  let parameters ← mentions self spec.parameters
  let result ← mention self spec.result
  pure { spec, parameters, result }

def signatures (self : String) :
    List MethodSpec → EStateM Error Registry (List Signature)
  | [] => pure []
  | spec :: rest => do
      let first ← signature self spec
      let others ← signatures self rest
      pure (first :: others)

def parentId (parent : Option String) : EStateM Error Registry TypeId := do
  match parent with
  | some name => load name
  | none => pure (← get).root

/-- Keeps the bytes that came with a definition. -/
def attachBytes (r : Registry) (name : String) (bytes : Option (Array UInt8)) :
    Registry :=
  match bytes with
  | some bytes => r.setBytes name bytes
  | none => r

/-- Whether a class of the name may be defined.  A name with suffixes is that of
an array, also when they are too many for a word to count. -/
def definable (name : String) : Bool :=
  match FieldType.spelled? name with
  | some ⟨0, .object _⟩ => true
  | _ => false

def define (spec : ClassSpec) : EStateM Error Registry TypeId := do
  if !definable spec.name then
    throw (.typeLoad (.invalidClassName spec.name))
  else
    let ancestor ← parentId spec.parent
    let declared ← signatures spec.name spec.methods
    let self := (← get).nextId
    let id ← make
      { name := spec.name
        flavor := if spec.isInterface then .interfaceType else .classType
        ancestor? := some ancestor
        methods := declared.map (Signature.declare self)
        annotations := spec.annotations }
    modify (·.attachBytes spec.name spec.classBytes)
    pure id

/-- Defines numbered classes that extend each other, and gives the last. -/
def defineChain (stem : String) :
    Nat → Nat → String → Option TypeId → EStateM Error Registry (Option TypeId)
  | 0, _, _, last => pure last
  | count + 1, number, parent, _ => do
      let name := stem ++ toString number
      let next ← define
        { name
          isInterface := false
          parent := some parent
          methods := []
          annotations := []
          classBytes := none }
      defineChain stem count (number + 1) name (some next)

/-! ## From class files -/

/-- Constructors and initialisers are not methods that anyone looks up. -/
def isInitializer (name : String) : Bool :=
  name.toList.head? == some '<'

/-- The methods of a class file up to the first that cannot be used. -/
def specsOfEntries (failure : Option Error) :
    List ClassFile.MethodEntry → Except Error (List MethodSpec)
  | [] =>
      match failure with
      | some error => .error error
      | none => .ok []
  | m :: rest =>
      if isInitializer m.name then specsOfEntries failure rest
      else do
        let first ← MethodSpec.ofDescriptor m.name m.descriptor m.flags []
        let others ← specsOfEntries failure rest
        pure (first :: others)

/-- The class that the bytes of a class file define. -/
def specOfClassFile (bytes : Array UInt8) : Except Error ClassSpec := do
  let file ← ClassFile.parse bytes
  let name ← file.className
  let parent ← file.superName
  let table ← file.methods
  let methods ← specsOfEntries table.failure table.methods
  pure
    { name := dotted name
      isInterface := file.isInterface
      parent := parent.map dotted
      methods
      annotations := []
      classBytes := some bytes }

def defineClassFile (bytes : Array UInt8) : EStateM Error Registry TypeId := do
  match specOfClassFile bytes with
  | .ok spec => define spec
  | .error error => throw error

end Registry

end Forwarding
