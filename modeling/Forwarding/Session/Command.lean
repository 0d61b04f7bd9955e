import Forwarding.Session.World

/-!
# Commands

What can be asked of a session, and what it answers.  Commands name types by
their names or by the variables they are kept in.
-/

namespace Forwarding

inductive TypeArg
  | root
  | variable (name : String)
  | named (name : String)

inductive SignatureArg
  | names (parameters : List String) (result : String)
  | descriptor (text : String)

structure MethodArg where
  name : String
  signature : SignatureArg
  flags : MethodFlags
  annotations : List Annotation

structure ClassArg where
  name : String
  isInterface : Bool
  parent : Option String
  methods : List MethodArg
  annotations : List Annotation
  classBytes : Option (Array UInt8)

/-- The key of a stub, part by part or that of a method. -/
inductive KeyArg
  | parts (owner : TypeArg) (name : String) (parameters : List TypeArg)
  | method (name : String)

/-- What a computation for a cache gives: the method in a variable, or a
failure to load a type. -/
inductive OutcomeArg
  | value (name : String)
  | failure (text : String)

inductive Command
  | define (spec : ClassArg) (keep : Option String)
  | defineFile (bytes : Array UInt8) (keep : Option String)
  | chain (stem : String) (count : Nat) (base : TypeArg) (keep : Option String)
  | registerBytes (name : String) (bytes : Array UInt8)
  | classBytes (type : TypeArg)
  | load (type : TypeArg) (keep : Option String)
  | lookUp (name : String) (keep : Option String)
  | contains (name : String)
  | info (name : String)
  | describe (type : TypeArg)
  | same (a b : TypeArg)
  | weaken (type : TypeArg) (keep : String)
  | recover (weak : String) (keep : Option String)
  | forget (name : String)
  | host (keep name : String) (ancestor : Option TypeArg)
      (annotations : List Annotation)
  | hostAncestor (host : String) (ancestor : TypeArg)
  | hostMethod (host method : String)
  | newMethod (owner : TypeArg) (name : String) (parameters : List TypeArg)
      (result : TypeArg) (flags : MethodFlags) (annotations : List Annotation)
      (keep : Option String)
  | method (type : TypeArg) (index : Nat) (keep : Option String)
  | showMethod (method : String)
  | sameMethod (a b : String)
  | shapeMatches (method name : String) (parameters : List TypeArg)
  | annotated (method kind : String) (element : Option String)
  | find (type : TypeArg) (name : String) (parameters : List TypeArg)
      (depth : Nat) (keep : Option String)
  | ancestors (type : TypeArg) (depth : Nat)
  | walk (type : TypeArg) (depth : Nat)
  | findAnnotated (type : TypeArg) (kind : String) (depth : Nat)
      (element : Option String)
  | resolver (keep : String) (limits : Limits)
  | resolve (resolver : String) (type : TypeArg) (name : String)
      (parameters : List TypeArg) (keep : Option String)
  | resolveMethod (resolver method : String) (keep : Option String)
  | cache (keep : String)
  | cached (cache : String) (key : KeyArg)
  | compute (cache : String) (key : KeyArg) (outcome : OutcomeArg)
      (callers : Nat) (keep : Option String)

inductive AnnotationAnswer
  | absent
  | whole (found : Annotation)
  | element (value : Option AnnotationValue)

/-- The flavor of a type as it can be shown: the component of an array type
may be gone. -/
inductive FlavorAnswer
  | primitive (base : BaseType)
  | void
  | classType
  | interfaceType
  | array (component : Option TypeRef)

inductive Answer
  | nothing
  | acknowledged
  | truth (value : Bool)
  | bytes (content : Array UInt8)
  | type (found : Option TypeRef)
  | types (found : List TypeRef)
  | membership (contains isEmpty : Bool)
  | info (found : Option (FlavorAnswer × Bool))
  | description (type : TypeRef) (ancestor : Option TypeRef) (isRoot : Bool)
      (methods : List (Method TypeRef)) (annotations : List Annotation)
  | method (found : Option (Method TypeRef))
  | methodDetails (method : Method TypeRef)
  | equalities (method shape key : Bool)
  | annotated (found : AnnotationAnswer)
  | walk (visited : List TypeRef) (failure : Option Error)
  | limits (limits : Limits)
  | resolution (found : Except Error (Option (Method TypeRef))) (cached : Nat)
  | cached (key : String) (found : Option (Method TypeRef)) (size : Nat)
  | computation (found : Except Error (Method TypeRef)) (computations : Nat)
      (agree : Bool) (size : Nat)

end Forwarding
