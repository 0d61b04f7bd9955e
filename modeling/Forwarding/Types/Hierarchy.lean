import Forwarding.Error
import Forwarding.Types.Method

/-!
# Hierarchies

Lookups that climb from a type through its ancestors.  They work on any view
of types, also on one whose ancestor chains never end, and therefore visit at
most a given number of types.  A climb ends in front of the root, which is
known by its name.
-/

namespace Forwarding

def rootTypeName : String := "java.lang.Object"

/-- What there is to know about types by their identities. -/
structure TypeView (τ : Type) where
  name : τ → String
  ancestor? : τ → Option τ
  methods : τ → List (Method τ)
  annotations : τ → List Annotation

namespace TypeView

variable {τ β : Type}

def isRoot (v : TypeView τ) (t : τ) : Bool :=
  v.name t == rootTypeName

/-! ## Climbing -/

/-- The first answer on the way up.  The climb fails when the limit is
exhausted and there is still a type below the root to ask. -/
def firstUp (v : TypeView τ) (ask : τ → Option β) (failure : Error) :
    Nat → τ → Except Error (Option β)
  | limit, t =>
      if v.isRoot t then .ok none
      else
        match limit with
        | 0 => .error failure
        | limit + 1 =>
            match ask t with
            | some answer => .ok (some answer)
            | none =>
                match v.ancestor? t with
                | some parent => firstUp v ask failure limit parent
                | none => .ok none

/-- The types on the way up, and whether the limit cut the climb short. -/
def visited (v : TypeView τ) : Nat → τ → List τ × Bool
  | limit, t =>
      if v.isRoot t then ([], false)
      else
        match limit with
        | 0 => ([], true)
        | limit + 1 =>
            match v.ancestor? t with
            | some parent =>
                let (above, cut) := visited v limit parent
                (t :: above, cut)
            | none => ([t], false)

/-- The error of a climb that the limit cuts short; it names the type that the
climb began at. -/
def tooDeep (v : TypeView τ) (limit : Nat) (t : τ) : Error :=
  .hierarchyCycle (v.name t) limit

/-! ## Lookups -/

def declared? [DecidableEq τ] (v : TypeView τ) (shape : Shape τ) (t : τ) :
    Option (Method τ) :=
  Method.preferred? ((v.methods t).filter (·.shape = shape))

def findMethod [DecidableEq τ] (v : TypeView τ) (limit : Nat) (t : τ)
    (shape : Shape τ) : Except Error (Option (Method τ)) :=
  v.firstUp (v.declared? shape) (v.tooDeep limit t) limit t

def findAnnotated (v : TypeView τ) (limit : Nat) (t : τ) (kind : String) :
    Except Error (Option Annotation) :=
  v.firstUp (fun u => annotated? kind (v.annotations u))
    (v.tooDeep limit t) limit t

/-- The types on the way up, and the error that ended the climb if the limit
did. -/
def walk (v : TypeView τ) (limit : Nat) (t : τ) : List τ × Option Error :=
  let (types, cut) := v.visited limit t
  (types, if cut then some (v.tooDeep limit t) else none)

/-- All ancestors below the root, the nearest first.  The first thing on the
way, usually the type itself, does not count; so a climb that is cut short
before its first type has no ancestors to report. -/
def ancestors (v : TypeView τ) (limit : Nat) (t : τ) : Except Error (List τ) :=
  match v.walk limit t with
  | ([], _) => .ok []
  | (_ :: above, none) => .ok above
  | (_ :: _, some failure) => .error failure

end TypeView

end Forwarding
