import Forwarding.Resolver.Cache

/-!
# Gates

Callers that want the value of one key at the same time compute it one after
the other: each key has a gate while somebody needs it, and only the holder of
the gate's lock computes.  A caller moves in small steps, between which any
other caller may move.  A gate is removed by the last caller that shares it,
so that it can be told by its reference count that nobody else needs it.
-/

namespace Forwarding.Gate

variable {κ ν ε : Type}

/-- What a caller does next. -/
inductive Stage (ν ε : Type) where
  /-- Looks the key up. -/
  | arriving
  /-- Fetches the gate of the key, or makes one, and shares it. -/
  | missing
  /-- Locks the gate. -/
  | waiting (gate : Nat)
  /-- Looks the key up again, now with the lock. -/
  | entered (gate : Nat)
  /-- Computes the value and stores it if there is one. -/
  | computing (gate : Nat)
  /-- Unlocks the gate. -/
  | leaving (gate : Nat) (result : Except ε ν)
  /-- Removes the gate if nobody else shares it. -/
  | releasing (gate : Nat) (result : Except ε ν)
  /-- Gives up its share of the gate. -/
  | dropping (gate : Nat) (result : Except ε ν)
  | finished (result : Except ε ν)

/-- The gate that a caller shares. -/
def Stage.gate? : Stage ν ε → Option Nat
  | .arriving => none
  | .missing => none
  | .waiting gate => some gate
  | .entered gate => some gate
  | .computing gate => some gate
  | .leaving gate _ => some gate
  | .releasing gate _ => some gate
  | .dropping gate _ => some gate
  | .finished _ => none

/-- Whether a caller holds the lock of a gate. -/
def Stage.holdsLock : Stage ν ε → Bool
  | .entered _ => true
  | .computing _ => true
  | .leaving _ _ => true
  | _ => false

def Stage.result? : Stage ν ε → Option (Except ε ν)
  | .finished result => some result
  | _ => none

structure Caller (κ ν ε : Type) where
  key : κ
  /-- What its computation gives if it comes to it. -/
  outcome : Except ε ν
  stage : Stage ν ε
  computations : Nat

structure State (κ ν ε : Type) where
  resolved : Cache κ ν
  /-- The gates that can be fetched. -/
  pending : List (κ × Nat)
  nextGate : Nat
  callers : List (Caller κ ν ε)

namespace State

/-- The number of shares in a gate: one per caller and one for being
fetchable. -/
def references (s : State κ ν ε) (gate : Nat) : Nat :=
  s.callers.countP (·.stage.gate? = some gate) + s.pending.countP (·.2 = gate)

def isLocked (s : State κ ν ε) (gate : Nat) : Bool :=
  s.callers.any fun c => c.stage.holdsLock && c.stage.gate? = some gate

def setCaller (s : State κ ν ε) (index : Nat) (c : Caller κ ν ε) : State κ ν ε :=
  { s with callers := s.callers.set index c }

variable [DecidableEq κ]

/-- The gate that can be fetched for a key. -/
def gateOf? (s : State κ ν ε) (key : κ) : Option Nat :=
  (s.pending.find? (·.1 = key)).map Prod.snd

/-- Shares the gate of the key, which is made if there is none. -/
def fetch (s : State κ ν ε) (index : Nat) (c : Caller κ ν ε) : State κ ν ε :=
  match s.gateOf? c.key with
  | some gate => s.setCaller index { c with stage := .waiting gate }
  | none =>
      { s with
        pending := s.pending ++ [(c.key, s.nextGate)]
        nextGate := s.nextGate + 1
        callers := s.callers.set index { c with stage := .waiting s.nextGate } }

def compute (s : State κ ν ε) (index : Nat) (c : Caller κ ν ε) (gate : Nat) :
    State κ ν ε :=
  let after :=
    { c with stage := .leaving gate c.outcome, computations := c.computations + 1 }
  match c.outcome with
  | .ok value =>
      { s with
        resolved := s.resolved.insert c.key value
        callers := s.callers.set index after }
  | .error _ => s.setCaller index after

/-- Removes the gate unless another caller shares it or the key has another
one by now. -/
def release (s : State κ ν ε) (key : κ) (gate : Nat) : State κ ν ε :=
  if s.gateOf? key = some gate ∧ s.references gate = 2 then
    { s with pending := s.pending.filter (·.1 ≠ key) }
  else s

/-- The move of a caller, unless it has finished or waits for a lock. -/
def move (s : State κ ν ε) (index : Nat) (c : Caller κ ν ε) :
    Option (State κ ν ε) :=
  let become (stage : Stage ν ε) := s.setCaller index { c with stage }
  match c.stage with
  | .arriving =>
      match s.resolved.get? c.key with
      | some value => some (become (.finished (.ok value)))
      | none => some (become .missing)
  | .missing => some (s.fetch index c)
  | .waiting gate => if s.isLocked gate then none else some (become (.entered gate))
  | .entered gate =>
      match s.resolved.get? c.key with
      | some value => some (become (.leaving gate (.ok value)))
      | none => some (become (.computing gate))
  | .computing gate => some (s.compute index c gate)
  | .leaving gate result => some (become (.releasing gate result))
  | .releasing gate result =>
      some ((s.release c.key gate).setCaller index
        { c with stage := .dropping gate result })
  | .dropping _ result => some (become (.finished result))
  | .finished _ => none

/-- One step of the caller with the given number. -/
def step (s : State κ ν ε) (index : Nat) : Option (State κ ν ε) :=
  s.callers[index]?.bind (s.move index)

/-- Lets every caller in turn make a step if it can. -/
def round (s : State κ ν ε) : State κ ν ε :=
  (List.range s.callers.length).foldl (fun s index => (s.step index).getD s) s

/-- Rounds until all callers have finished, or the fuel is used up. -/
def run : Nat → State κ ν ε → State κ ν ε
  | 0, s => s
  | fuel + 1, s =>
      if s.callers.all (·.stage.result?.isSome) then s else run fuel s.round

end State

/-- The number of steps that a caller makes at most. -/
def stepsPerCaller : Nat := 8

/-- A number of callers that ask for one key at the same time, each with the
same computation. -/
def start (resolved : Cache κ ν) (key : κ) (outcome : Except ε ν) (callers : Nat) :
    State κ ν ε where
  resolved := resolved
  pending := []
  nextGate := 0
  callers := List.replicate callers ⟨key, outcome, .arriving, 0⟩

/-- Lets callers ask until all have their results.  Some caller can always
move, so every round brings them nearer to the end. -/
def ask [DecidableEq κ] (resolved : Cache κ ν) (key : κ) (outcome : Except ε ν)
    (callers : Nat) : State κ ν ε :=
  (start resolved key outcome callers).run (stepsPerCaller * callers)

end Forwarding.Gate
