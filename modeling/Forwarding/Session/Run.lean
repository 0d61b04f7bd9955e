import Forwarding.Session.State

/-!
# Running commands

Each command works on the state that the one before it left.  A command that
fails leaves what it has done until then, in particular the array types that
its arguments made.
-/

namespace Forwarding

inductive Refusal
  | failed (error : Error)
  /-- A variable that holds nothing of the kind that is wanted. -/
  | unbound (name : String)

abbrev SessionM := EStateM Refusal Session

namespace Session

/-! ## Access -/

def orUnbound {α : Type} (name : String) : Option α → SessionM α
  | some value => pure value
  | none => throw (.unbound name)

def orFail {α : Type} : Except Error α → SessionM α
  | .ok value => pure value
  | .error error => throw (.failed error)

def onRegistry {α : Type} (operation : EStateM Error Registry α) : SessionM α :=
  fun s =>
    match operation s.registry with
    | .ok value registry => .ok value { s with registry }
    | .error error registry => .error (.failed error) { s with registry }

def currentView : SessionM (TypeView TypeRef) := do
  pure (← get).world.view

def methodOf (name : String) : SessionM (Method TypeRef) := do
  orUnbound name ((← get).methods.get? name)

def cacheOf (name : String) : SessionM (StubCache TypeRef) := do
  orUnbound name ((← get).cacheOf? name)

def evalType : TypeArg → SessionM TypeRef
  | .root => do pure (.registered (← get).registry.root)
  | .variable name => do orUnbound name ((← get).types.get? name)
  | .named name => .registered <$> onRegistry (Registry.load name)

def evalTypes : List TypeArg → SessionM (List TypeRef)
  | [] => pure []
  | arg :: rest => do
      let first ← evalType arg
      let others ← evalTypes rest
      pure (first :: others)

def evalKey : KeyArg → SessionM (StubKey TypeRef)
  | .parts owner name parameters => do
      let owner ← evalType owner
      let parameters ← evalTypes parameters
      pure ⟨owner, ⟨name, parameters⟩⟩
  | .method name => do pure (← methodOf name).key

/-! ## Variables -/

def keepType (keep : Option String) (t : TypeRef) : SessionM Unit :=
  match keep with
  | some name => modify fun s => { s with types := s.types.set name t }
  | none => pure ()

def keepMethod (keep : Option String) (m : Method TypeRef) : SessionM Unit :=
  match keep with
  | some name => modify fun s => { s with methods := s.methods.set name m }
  | none => pure ()

def answerType (keep : Option String) (t : TypeRef) : SessionM Answer := do
  keepType keep t
  pure (.type (some t))

def answerTypeIf (keep : Option String) : Option TypeRef → SessionM Answer
  | some t => answerType keep t
  | none => pure (.type none)

def answerMethodIf (keep : Option String) :
    Option (Method TypeRef) → SessionM Answer
  | some m => do
      keepMethod keep m
      pure (.method (some m))
  | none => pure (.method none)

/-- Forgets what variables of the name hold.  Only types and methods count as
something that was held; a weak reference of the name holds nothing and stays. -/
def forget (name : String) : SessionM Bool := do
  let s ← get
  set { s with
    types := s.types.drop name
    methods := s.methods.drop name
    resolvers := s.resolvers.drop name
    caches := s.caches.drop name }
  pure ((s.types.get? name).isSome || (s.methods.get? name).isSome)

/-! ## Definitions -/

def methodSpec (m : MethodArg) : Except Error MethodSpec :=
  match m.signature with
  | .names parameters result =>
      .ok { name := m.name, parameters, result, flags := m.flags,
            annotations := m.annotations }
  | .descriptor text => MethodSpec.ofDescriptor m.name text m.flags m.annotations

def methodSpecs : List MethodArg → Except Error (List MethodSpec)
  | [] => .ok []
  | m :: rest => do
      let first ← methodSpec m
      let others ← methodSpecs rest
      pure (first :: others)

def classSpec (c : ClassArg) : Except Error ClassSpec :=
  (methodSpecs c.methods).map fun methods =>
    { name := c.name
      isInterface := c.isInterface
      parent := c.parent
      methods
      annotations := c.annotations
      classBytes := c.classBytes }

/-! ## Host types -/

def changeHost (name : String) (change : HostType → HostType) : SessionM Unit := do
  let index ← orUnbound name ((← get).hostNames.get? name)
  modify fun s => { s with hosts := s.hosts.modify index change }

def addHost (keep : String) (h : HostType) : SessionM Answer := do
  let index := (← get).hosts.size
  modify fun s =>
    { s with
      hosts := s.hosts.push h
      hostNames := s.hostNames.set keep index }
  answerType (some keep) (.hosted index)

/-! ## Reports -/

def flavorAnswer (s : Session) : Flavor → FlavorAnswer
  | .primitive base => .primitive base
  | .void => .void
  | .classType => .classType
  | .interfaceType => .interfaceType
  | .array component =>
      let w := s.world
      .array ((w.registry.component? w.held (.array component)).map .registered)

def info (s : Session) (name : String) : Option (FlavorAnswer × Bool) := do
  let t ← s.registry.get? name
  let d ← s.registry.definition? t
  pure (s.flavorAnswer d.flavor, d.flavor.isPrimitive)

def annotationAnswer (element : Option String) :
    Option Annotation → AnnotationAnswer
  | none => .absent
  | some a =>
      match element with
      | none => .whole a
      | some name => .element (a.element? name)

/-! ## Resolution -/

/-- Runs an operation of a resolver, whose failure is part of the answer. -/
def withResolver (name : String)
    (operation : Limits →
      EStateM Error (Resolving World TypeRef) (Option (Method TypeRef)))
    (keep : Option String) : SessionM Answer := do
  let s ← get
  let r ← orUnbound name (s.resolvers.get? name)
  let finish (after : Resolving World TypeRef) : SessionM Nat := do
    modify fun s => { s with registry := after.world.registry }
    modify (·.setCache name after.cache)
    pure after.cache.size
  match operation r.limits ⟨s.world, r.cache⟩ with
  | .ok found after => do
      let cached ← finish after
      found.forM (keepMethod keep)
      pure (.resolution (.ok found) cached)
  | .error error after => do
      let cached ← finish after
      pure (.resolution (.error error) cached)

def evalOutcome : OutcomeArg → SessionM (Except Error (Method TypeRef))
  | .value name => .ok <$> methodOf name
  | .failure text => pure (.error (.typeLoad (.unknown text)))

def results (s : Gate.State (StubKey TypeRef) (Method TypeRef) Error) :
    List (Except Error (Method TypeRef)) :=
  s.callers.filterMap (·.stage.result?)

def sameResult : Except Error (Method TypeRef) → Except Error (Method TypeRef) → Bool
  | .ok a, .ok b => a.same b
  | .error a, .error b => a.message == b.message
  | _, _ => false

/-- Lets callers ask a cache for a key at the same time. -/
def compute (name : String) (key : StubKey TypeRef)
    (outcome : Except Error (Method TypeRef)) (callers : Nat)
    (keep : Option String) : SessionM Answer := do
  let cache ← cacheOf name
  let after := Gate.ask cache key outcome callers
  modify (·.setCache name after.resolved)
  let computations := after.callers.foldl (fun count c => count + c.computations) 0
  match results after with
  | [] => throw (.unbound name)
  | first :: others => do
      if let .ok m := first then keepMethod keep m
      pure (.computation first computations (others.all (sameResult first))
        after.resolved.size)

/-! ## Commands -/

def perform : Command → SessionM Answer
  | .define spec keep => do
      let spec ← orFail (classSpec spec)
      let id ← onRegistry (Registry.define spec)
      answerType keep (.registered id)
  | .defineFile bytes keep => do
      let id ← onRegistry (Registry.defineClassFile bytes)
      answerType keep (.registered id)
  | .chain stem count base keep => do
      let base ← evalType base
      let parent := (← get).nameOf base
      let last ← onRegistry (Registry.defineChain stem count 0 parent none)
      answerType keep ((last.map TypeRef.registered).getD base)
  | .registerBytes name bytes => do
      onRegistry (Registry.registerBytes name bytes)
      pure .acknowledged
  | .classBytes type => do
      let t ← evalType type
      let w := (← get).world
      .bytes <$> orFail (World.provider.classBytes w t)
  | .load type keep => do answerType keep (← evalType type)
  | .lookUp name keep => do
      answerTypeIf keep (((← get).registry.get? name).map .registered)
  | .contains name => do
      let r := (← get).registry
      pure (.membership (r.contains name) r.isEmpty)
  | .info name => do pure (.info ((← get).info name))
  | .describe type => do
      let t ← evalType type
      let v ← currentView
      pure (.description t (v.ancestor? t) (v.isRoot t) (v.methods t)
        (v.annotations t))
  | .same a b => do
      let a ← evalType a
      let b ← evalType b
      pure (.truth (a = b))
  | .weaken type keep => do
      let t ← evalType type
      modify fun s => { s with weak := s.weak.set keep t }
      pure .nothing
  | .recover weak keep => do
      let t ← orUnbound weak ((← get).weak.get? weak)
      answerTypeIf keep (if (← get).world.isAlive t then some t else none)
  | .forget name => .truth <$> forget name
  | .host keep name ancestor annotations => do
      let ancestor ← ancestor.mapM evalType
      addHost keep { name, ancestor? := ancestor, methods := [], annotations }
  | .hostAncestor host ancestor => do
      let ancestor ← evalType ancestor
      changeHost host fun h => { h with ancestor? := some ancestor }
      pure .nothing
  | .hostMethod host method => do
      let m ← methodOf method
      changeHost host fun h => { h with methods := h.methods ++ [m] }
      pure .nothing
  | .newMethod owner name parameters result flags annotations keep => do
      let owner ← evalType owner
      let parameters ← evalTypes parameters
      let result ← evalType result
      answerMethodIf keep
        (some { owner, shape := ⟨name, parameters⟩, result, flags, annotations })
  | .method type index keep => do
      let t ← evalType type
      let v ← currentView
      answerMethodIf keep (v.methods t)[index]?
  | .showMethod method => .methodDetails <$> methodOf method
  | .sameMethod a b => do
      let a ← methodOf a
      let b ← methodOf b
      pure (.equalities (a.same b) (a.shape = b.shape) (a.key = b.key))
  | .shapeMatches method name parameters => do
      let m ← methodOf method
      let parameters ← evalTypes parameters
      pure (.truth (m.shape = ⟨name, parameters⟩))
  | .annotated method kind element => do
      let m ← methodOf method
      pure (.annotated
        (annotationAnswer element (annotated? kind m.annotations)))
  | .find type name parameters depth keep => do
      let t ← evalType type
      let parameters ← evalTypes parameters
      let v ← currentView
      answerMethodIf keep (← orFail (v.findMethod depth t ⟨name, parameters⟩))
  | .ancestors type depth => do
      let t ← evalType type
      let v ← currentView
      .types <$> orFail (v.ancestors depth t)
  | .walk type depth => do
      let t ← evalType type
      let v ← currentView
      let (visited, failure) := v.walk depth t
      pure (.walk visited failure)
  | .findAnnotated type kind depth element => do
      let t ← evalType type
      let v ← currentView
      let found ← orFail (v.findAnnotated depth t kind)
      pure (.annotated (annotationAnswer element found))
  | .resolver keep limits => do
      modify fun s =>
        { s with resolvers := s.resolvers.set keep ⟨limits, .empty⟩ }
      pure (.limits limits)
  | .resolve resolver type name parameters keep => do
      let t ← evalType type
      let parameters ← evalTypes parameters
      withResolver resolver
        (fun limits => Resolver.resolve World.provider limits t ⟨name, parameters⟩)
        keep
  | .resolveMethod resolver method keep => do
      let m ← methodOf method
      withResolver resolver
        (fun limits => some <$> Resolver.resolveMethod World.provider limits m)
        keep
  | .cache keep => do
      modify fun s => { s with caches := s.caches.set keep .empty }
      pure .nothing
  | .cached cache key => do
      let key ← evalKey key
      let c ← cacheOf cache
      pure (.cached (key.display (← get).nameOf) (c.get? key) c.size)
  | .compute cache key outcome callers keep => do
      let key ← evalKey key
      let outcome ← evalOutcome outcome
      compute cache key outcome callers keep

/-- Runs a command and gives its answer, or why there is none, and the state
that it leaves. -/
def run (s : Session) (command : Command) : Except Refusal Answer × Session :=
  match perform command s with
  | .ok answer s => (.ok answer, s)
  | .error refusal s => (.error refusal, s)

end Session

end Forwarding
