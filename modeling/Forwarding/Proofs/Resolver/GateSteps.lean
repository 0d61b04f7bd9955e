import Mathlib.Logic.Relation
import Forwarding.Resolver.Gate

/-!
# Steps between gates

What a step of a caller does, one case for each of the places where a caller can
be, and what holds of the gates in every state that steps lead to.  The gate of a
key may be removed and made anew while callers are on their way, but all callers
that still need a gate for one key share the same one.
-/

namespace Forwarding.Gate

variable {κ ν ε : Type}

/-- The result that a caller carries from the gate or has returned with. -/
def Stage.carried? : Stage ν ε → Option (Except ε ν)
  | .leaving _ result => some result
  | .releasing _ result => some result
  | .dropping _ result => some result
  | .finished result => some result
  | _ => none

def Stage.isComputing : Stage ν ε → Bool
  | .computing _ => true
  | _ => false

/-- The gate that a caller needs, which ends when it has tried to remove the gate. -/
def Stage.needed? : Stage ν ε → Option Nat
  | .dropping _ _ => none
  | stage => stage.gate?

theorem Stage.gate?_of_needed? {stage : Stage ν ε} {gate : Nat}
    (hneeded : stage.needed? = some gate) : stage.gate? = some gate := by
  cases stage <;> simp_all [needed?, gate?]

namespace Caller

def become (c : Caller κ ν ε) (stage : Stage ν ε) : Caller κ ν ε :=
  { c with stage }

def computed (c : Caller κ ν ε) (gate : Nat) : Caller κ ν ε :=
  { c with stage := .leaving gate c.outcome, computations := c.computations + 1 }

end Caller

namespace State

variable {s s' s₀ : State κ ν ε} {index : Nat} {c c' d : Caller κ ν ε}

theorem mem_callers_setCaller (hmem : d ∈ (s.setCaller index c').callers) :
    d ∈ s.callers ∨ d = c' :=
  List.mem_or_eq_of_mem_set hmem

theorem getElem?_callers_setCaller {other : Nat}
    (hother : (s.setCaller index c').callers[other]? = some d) :
    (other = index ∧ d = c') ∨ (other ≠ index ∧ s.callers[other]? = some d) := by
  simp only [setCaller, List.getElem?_set] at hother
  by_cases hsame : index = other
  · rw [if_pos hsame] at hother
    split at hother
    · exact .inl ⟨hsame.symm, (Option.some.inj hother).symm⟩
    · cases hother
  · rw [if_neg hsame] at hother
    exact .inr ⟨Ne.symm hsame, hother⟩

theorem mem_setCaller_self (hc : s.callers[index]? = some c) :
    c' ∈ (s.setCaller index c').callers :=
  List.mem_set (List.getElem?_eq_some_iff.mp hc).1 c'

theorem mem_setCaller_of_ne {j : Nat} (hd : s.callers[j]? = some d) (hne : index ≠ j) :
    d ∈ (s.setCaller index c').callers := by
  have hkept : (s.callers.set index c')[j]? = some d := by
    rw [List.getElem?_set_ne hne, hd]
  exact List.mem_of_getElem? hkept

theorem not_holdsLock_of_isLocked {gate : Nat} (hfree : s.isLocked gate = false)
    (hd : d ∈ s.callers) (hgate : d.stage.gate? = some gate) : d.stage.holdsLock = false := by
  have hnone := List.any_eq_false.mp hfree d hd
  simpa [hgate] using hnone

theorem exists_holder_of_isLocked {gate : Nat} (hlocked : s.isLocked gate = true) :
    ∃ d ∈ s.callers, d.stage.holdsLock = true ∧ d.stage.gate? = some gate := by
  obtain ⟨d, hd, hholds⟩ := List.any_eq_true.mp hlocked
  exact ⟨d, hd, by simpa using hholds⟩

variable [DecidableEq κ]

/-- What the step of a caller does to the state. -/
inductive Steps (s : State κ ν ε) (index : Nat) (c : Caller κ ν ε) : State κ ν ε → Prop
  | hit {value : ν} (hstage : c.stage = .arriving)
      (hvalue : s.resolved.get? c.key = some value) :
      Steps s index c (s.setCaller index (c.become (.finished (.ok value))))
  | miss (hstage : c.stage = .arriving) (hvalue : s.resolved.get? c.key = none) :
      Steps s index c (s.setCaller index (c.become .missing))
  | share {gate : Nat} (hstage : c.stage = .missing) (hgate : s.gateOf? c.key = some gate) :
      Steps s index c (s.setCaller index (c.become (.waiting gate)))
  | make (hstage : c.stage = .missing) (hgate : s.gateOf? c.key = none) :
      Steps s index c
        (setCaller { s with
            pending := s.pending ++ [(c.key, s.nextGate)]
            nextGate := s.nextGate + 1 }
          index (c.become (.waiting s.nextGate)))
  | lock {gate : Nat} (hstage : c.stage = .waiting gate) (hfree : s.isLocked gate = false) :
      Steps s index c (s.setCaller index (c.become (.entered gate)))
  | hitBehind {gate : Nat} {value : ν} (hstage : c.stage = .entered gate)
      (hvalue : s.resolved.get? c.key = some value) :
      Steps s index c (s.setCaller index (c.become (.leaving gate (.ok value))))
  | missBehind {gate : Nat} (hstage : c.stage = .entered gate)
      (hvalue : s.resolved.get? c.key = none) :
      Steps s index c (s.setCaller index (c.become (.computing gate)))
  | succeed {gate : Nat} {value : ν} (hstage : c.stage = .computing gate)
      (houtcome : c.outcome = .ok value) :
      Steps s index c
        (setCaller { s with resolved := s.resolved.insert c.key value } index (c.computed gate))
  | fail {gate : Nat} {error : ε} (hstage : c.stage = .computing gate)
      (houtcome : c.outcome = .error error) :
      Steps s index c (s.setCaller index (c.computed gate))
  | unlock {gate : Nat} {result : Except ε ν} (hstage : c.stage = .leaving gate result) :
      Steps s index c (s.setCaller index (c.become (.releasing gate result)))
  | remove {gate : Nat} {result : Except ε ν} (hstage : c.stage = .releasing gate result)
      (hgate : s.gateOf? c.key = some gate) (hlast : s.references gate = 2) :
      Steps s index c
        (setCaller { s with pending := s.pending.filter (·.1 ≠ c.key) }
          index (c.become (.dropping gate result)))
  | keep {gate : Nat} {result : Except ε ν} (hstage : c.stage = .releasing gate result)
      (hshared : ¬(s.gateOf? c.key = some gate ∧ s.references gate = 2)) :
      Steps s index c (s.setCaller index (c.become (.dropping gate result)))
  | drop {gate : Nat} {result : Except ε ν} (hstage : c.stage = .dropping gate result) :
      Steps s index c (s.setCaller index (c.become (.finished result)))

theorem move_eq_some_iff : s.move index c = some s' ↔ s.Steps index c s' := by
  constructor
  · intro hmove
    unfold move at hmove
    cases hstage : c.stage with
    | arriving =>
        simp only [hstage] at hmove
        cases hvalue : s.resolved.get? c.key with
        | none =>
            simp only [hvalue, Option.some.injEq] at hmove
            subst hmove
            exact .miss hstage hvalue
        | some value =>
            simp only [hvalue, Option.some.injEq] at hmove
            subst hmove
            exact .hit hstage hvalue
    | missing =>
        simp only [hstage, Option.some.injEq] at hmove
        subst hmove
        unfold fetch
        cases hgate : s.gateOf? c.key with
        | none => exact .make hstage hgate
        | some gate => exact .share hstage hgate
    | waiting gate =>
        simp only [hstage] at hmove
        cases hfree : s.isLocked gate with
        | true => simp [hfree] at hmove
        | false =>
            simp only [hfree, Bool.false_eq_true, if_false, Option.some.injEq] at hmove
            subst hmove
            exact .lock hstage hfree
    | entered gate =>
        simp only [hstage] at hmove
        cases hvalue : s.resolved.get? c.key with
        | none =>
            simp only [hvalue, Option.some.injEq] at hmove
            subst hmove
            exact .missBehind hstage hvalue
        | some value =>
            simp only [hvalue, Option.some.injEq] at hmove
            subst hmove
            exact .hitBehind hstage hvalue
    | computing gate =>
        simp only [hstage, Option.some.injEq] at hmove
        subst hmove
        unfold compute
        cases houtcome : c.outcome with
        | error error =>
            have hfail := @Steps.fail _ _ _ _ s index c gate error hstage houtcome
            rwa [Caller.computed, houtcome] at hfail
        | ok value =>
            have hsucceed := @Steps.succeed _ _ _ _ s index c gate value hstage houtcome
            rwa [Caller.computed, houtcome] at hsucceed
    | leaving gate result =>
        simp only [hstage, Option.some.injEq] at hmove
        subst hmove
        exact .unlock hstage
    | releasing gate result =>
        simp only [hstage, Option.some.injEq] at hmove
        subst hmove
        unfold release
        by_cases hlast : s.gateOf? c.key = some gate ∧ s.references gate = 2
        · rw [if_pos hlast]
          exact .remove hstage hlast.1 hlast.2
        · rw [if_neg hlast]
          exact .keep hstage hlast
    | dropping gate result =>
        simp only [hstage, Option.some.injEq] at hmove
        subst hmove
        exact .drop hstage
    | finished result => simp [hstage] at hmove
  · intro hsteps
    cases hsteps with
    | remove hstage hgate hlast =>
        simp only [move, hstage, release, hgate, hlast, and_self, if_true, Caller.become]
    | keep hstage hshared =>
        simp only [move, hstage, release, if_neg hshared, Caller.become]
    | _ =>
        simp_all [move, fetch, compute, Caller.become, Caller.computed, setCaller]

theorem step_eq_some_iff :
    s.step index = some s' ↔ ∃ c, s.callers[index]? = some c ∧ s.Steps index c s' := by
  unfold step
  rw [Option.bind_eq_some_iff]
  simp only [move_eq_some_iff]

/-- Whether steps of any callers, in any order, lead from one state to another. -/
def Reaches : State κ ν ε → State κ ν ε → Prop :=
  Relation.ReflTransGen fun s s' => ∃ index, s.step index = some s'

/-- Whether nobody has made a step yet. -/
structure Initial (s : State κ ν ε) : Prop where
  pending : s.pending = []
  arriving : ∀ c ∈ s.callers, c.stage = .arriving
  computations : ∀ c ∈ s.callers, c.computations = 0

theorem reaches_of_foldlM {indices : List Nat}
    (hsteps : indices.foldlM State.step s = some s') : s.Reaches s' := by
  induction indices generalizing s with
  | nil =>
      cases hsteps
      exact .refl
  | cons index rest ih =>
      rw [List.foldlM_cons, Option.bind_eq_bind, Option.bind_eq_some_iff] at hsteps
      obtain ⟨next, hstep, hrest⟩ := hsteps
      exact .head ⟨index, hstep⟩ (ih hrest)

/-! ## The gates in every state -/

theorem mem_pending_of_gateOf? {key : κ} {gate : Nat} (hgate : s.gateOf? key = some gate) :
    (key, gate) ∈ s.pending := by
  unfold gateOf? at hgate
  obtain ⟨entry, hfind, hentry⟩ := Option.map_eq_some_iff.mp hgate
  have hkey : entry.1 = key := by simpa using List.find?_some hfind
  have hmem := List.mem_of_find?_eq_some hfind
  rwa [← hkey, ← hentry]

/-- What holds of the gates: callers of different keys never share one, callers that
still need a gate for the same key share the one that can be fetched, and no lock is
held twice. -/
structure GatesShared (s : State κ ν ε) : Prop where
  shared_lt : ∀ c ∈ s.callers, ∀ gate, c.stage.gate? = some gate → gate < s.nextGate
  pending_lt : ∀ entry ∈ s.pending, entry.2 < s.nextGate
  pending_inj : ∀ key key' gate, (key, gate) ∈ s.pending → (key', gate) ∈ s.pending → key = key'
  pending_key : ∀ c ∈ s.callers, ∀ key gate, (key, gate) ∈ s.pending →
    c.stage.gate? = some gate → c.key = key
  shared_key : ∀ c ∈ s.callers, ∀ d ∈ s.callers, ∀ gate : Nat,
    c.stage.gate? = some gate → d.stage.gate? = some gate → c.key = d.key
  needed : ∀ c ∈ s.callers, ∀ gate,
    c.stage.needed? = some gate → s.gateOf? c.key = some gate
  one_holder : ∀ (i j : Nat) (c d : Caller κ ν ε) (gate : Nat),
    s.callers[i]? = some c → s.callers[j]? = some d →
    c.stage.holdsLock = true → d.stage.holdsLock = true →
    c.stage.gate? = some gate → d.stage.gate? = some gate → i = j

theorem Initial.gatesShared (hinitial : Initial s) : GatesShared s := by
  have hgate : ∀ c ∈ s.callers, c.stage.gate? = none := by
    intro c hc
    rw [hinitial.arriving c hc]
    rfl
  have hpending := hinitial.pending
  constructor
  · intro c hc gate hshared
    rw [hgate c hc] at hshared
    cases hshared
  · simp [hpending]
  · simp [hpending]
  · simp [hpending]
  · intro c hc d hd gate hshared
    rw [hgate c hc] at hshared
    cases hshared
  · intro c hc gate hneeded
    have hshared := Stage.gate?_of_needed? hneeded
    rw [hgate c hc] at hshared
    cases hshared
  · intro i j c d gate hi hj hholds hholds' hshared
    rw [hgate c (List.mem_of_getElem? hi)] at hshared
    cases hshared

theorem GatesShared.setCaller (hs : GatesShared s) (hc : s.callers[index]? = some c)
    (hkey : c'.key = c.key)
    (hgate : ∀ gate, c'.stage.gate? = some gate →
      c.stage.gate? = some gate ∨ s.gateOf? c.key = some gate)
    (hneeded : ∀ gate, c'.stage.needed? = some gate → s.gateOf? c.key = some gate)
    (hlock : c'.stage.holdsLock = true → ∀ gate, c'.stage.gate? = some gate →
      (c.stage.holdsLock = true ∧ c.stage.gate? = some gate) ∨ s.isLocked gate = false) :
    GatesShared (s.setCaller index c') := by
  have hmem := List.mem_of_getElem? hc
  have hsharer : ∀ gate, c'.stage.gate? = some gate → ∀ d ∈ s.callers,
      d.stage.gate? = some gate → c'.key = d.key := by
    intro gate hshared d hd hd'
    rw [hkey]
    rcases hgate gate hshared with hold | hcurrent
    · exact hs.shared_key c hmem d hd gate hold hd'
    · exact (hs.pending_key d hd _ gate (mem_pending_of_gateOf? hcurrent) hd').symm
  have hholder : c'.stage.holdsLock = true → ∀ gate, c'.stage.gate? = some gate →
      ∀ j d, j ≠ index → s.callers[j]? = some d → d.stage.holdsLock = true →
      d.stage.gate? ≠ some gate := by
    intro hholds gate hshared j d hj hd hd' hd''
    rcases hlock hholds gate hshared with hold | hfree
    · exact hj (hs.one_holder j index d c gate hd hc hd' hold.1 hd'' hold.2)
    · have hnone := not_holdsLock_of_isLocked hfree (List.mem_of_getElem? hd) hd''
      rw [hd'] at hnone
      cases hnone
  constructor
  · intro d hd gate hshared
    rcases mem_callers_setCaller hd with hold | rfl
    · exact hs.shared_lt d hold gate hshared
    · rcases hgate gate hshared with hold | hcurrent
      · exact hs.shared_lt c hmem gate hold
      · exact hs.pending_lt _ (mem_pending_of_gateOf? hcurrent)
  · exact hs.pending_lt
  · exact hs.pending_inj
  · intro d hd key gate hentry hshared
    rcases mem_callers_setCaller hd with hold | rfl
    · exact hs.pending_key d hold key gate hentry hshared
    · rcases hgate gate hshared with hold | hcurrent
      · rw [hkey]
        exact hs.pending_key c hmem key gate hentry hold
      · rw [hkey]
        exact hs.pending_inj c.key key gate (mem_pending_of_gateOf? hcurrent) hentry
  · intro d hd e he gate hshared hshared'
    rcases mem_callers_setCaller hd with hold | rfl
    · rcases mem_callers_setCaller he with hold' | rfl
      · exact hs.shared_key d hold e hold' gate hshared hshared'
      · exact (hsharer gate hshared' d hold hshared).symm
    · rcases mem_callers_setCaller he with hold' | rfl
      · exact hsharer gate hshared e hold' hshared'
      · rfl
  · intro d hd gate hshared
    rcases mem_callers_setCaller hd with hold | rfl
    · exact hs.needed d hold gate hshared
    · rw [hkey]
      exact hneeded gate hshared
  · intro i j d e gate hi hj hholds hholds' hshared hshared'
    rcases getElem?_callers_setCaller hi with ⟨rfl, rfl⟩ | ⟨hne, hold⟩
    · rcases getElem?_callers_setCaller hj with ⟨rfl, rfl⟩ | ⟨hne', hold'⟩
      · rfl
      · exact (hholder hholds gate hshared j e hne' hold' hholds' hshared').elim
    · rcases getElem?_callers_setCaller hj with ⟨rfl, rfl⟩ | ⟨hne', hold'⟩
      · exact (hholder hholds' gate hshared' i d hne hold hholds hshared).elim
      · exact hs.one_holder i j d e gate hold hold' hholds hholds' hshared hshared'

theorem gateOf?_append (key other : κ) (gate next : Nat) :
    State.gateOf? { s with pending := s.pending ++ [(key, gate)], nextGate := next } other =
      (s.gateOf? other).or (if key = other then some gate else none) := by
  unfold gateOf?
  rw [List.find?_append, Option.map_or]
  by_cases hkey : key = other <;> simp [hkey]

theorem GatesShared.make (hs : GatesShared s) {key : κ} (hgate : s.gateOf? key = none) :
    GatesShared { s with
      pending := s.pending ++ [(key, s.nextGate)]
      nextGate := s.nextGate + 1 } := by
  have hnew : ∀ other gate, (other, gate) ∈ s.pending ++ [(key, s.nextGate)] →
      (other, gate) ∈ s.pending ∨ (other = key ∧ gate = s.nextGate) := by
    intro other gate hentry
    simpa using hentry
  have hfresh : ∀ other, (other, s.nextGate) ∉ s.pending := by
    intro other hentry
    have hlt := hs.pending_lt _ hentry
    exact Nat.lt_irrefl _ hlt
  constructor
  · intro c hc gate hshared
    have hlt := hs.shared_lt c hc gate hshared
    exact Nat.lt_succ_of_lt hlt
  · intro entry hentry
    rcases hnew entry.1 entry.2 hentry with hold | ⟨-, hnext⟩
    · exact Nat.lt_succ_of_lt (hs.pending_lt _ hold)
    · exact hnext ▸ Nat.lt_succ_self _
  · intro first second gate hfirst hsecond
    rcases hnew first gate hfirst with hold | ⟨rfl, rfl⟩
    · rcases hnew second gate hsecond with hold' | ⟨rfl, rfl⟩
      · exact hs.pending_inj first second gate hold hold'
      · exact (hfresh first hold).elim
    · rcases hnew second _ hsecond with hold' | ⟨rfl, -⟩
      · exact (hfresh second hold').elim
      · rfl
  · intro c hc other gate hentry hshared
    rcases hnew other gate hentry with hold | ⟨-, rfl⟩
    · exact hs.pending_key c hc other gate hold hshared
    · exact (Nat.lt_irrefl _ (hs.shared_lt c hc _ hshared)).elim
  · exact hs.shared_key
  · intro c hc gate hneeded
    rw [gateOf?_append, hs.needed c hc gate hneeded, Option.some_or]
  · exact hs.one_holder

theorem gateOf?_make {key : κ} {gate next : Nat} (hgate : s.gateOf? key = none) :
    State.gateOf? { s with pending := s.pending ++ [(key, gate)], nextGate := next } key =
      some gate := by
  rw [gateOf?_append, hgate]
  simp

theorem gateOf?_remove {key other : κ} (hother : other ≠ key) :
    State.gateOf? { s with pending := s.pending.filter (·.1 ≠ key) } other =
      s.gateOf? other := by
  unfold gateOf?
  rw [List.find?_filter]
  congr 2
  funext entry
  by_cases hentry : entry.1 = other
  · simp [hentry, hother]
  · simp [hentry]

theorem GatesShared.remove (hs : GatesShared s) {key : κ}
    (hunneeded : ∀ c ∈ s.callers, ∀ gate, c.stage.needed? = some gate → c.key ≠ key) :
    GatesShared { s with pending := s.pending.filter (·.1 ≠ key) } := by
  have hold : ∀ entry, entry ∈ s.pending.filter (·.1 ≠ key) → entry ∈ s.pending :=
    fun entry hentry => (List.mem_filter.mp hentry).1
  constructor
  · exact hs.shared_lt
  · intro entry hentry
    exact hs.pending_lt entry (hold entry hentry)
  · intro first second gate hfirst hsecond
    exact hs.pending_inj first second gate (hold _ hfirst) (hold _ hsecond)
  · intro c hc other gate hentry hshared
    exact hs.pending_key c hc other gate (hold _ hentry) hshared
  · exact hs.shared_key
  · intro c hc gate hneeded
    rw [gateOf?_remove (hunneeded c hc gate hneeded)]
    exact hs.needed c hc gate hneeded
  · exact hs.one_holder

theorem two_le_countP {α : Type} {test : α → Bool} {l : List α} {i j : Nat} {a b : α}
    (hi : l[i]? = some a) (hj : l[j]? = some b) (hne : i ≠ j) (ha : test a = true)
    (hb : test b = true) : 2 ≤ l.countP test := by
  induction l generalizing i j with
  | nil => simp at hi
  | cons head rest ih =>
      cases i with
      | zero =>
          cases j with
          | zero => exact (hne rfl).elim
          | succ j =>
              have hrest : 0 < rest.countP test :=
                List.countP_pos_iff.mpr ⟨b, List.mem_of_getElem? hj, hb⟩
              have hhead : head = a := by simpa using hi
              rw [List.countP_cons, hhead, if_pos ha]
              omega
      | succ i =>
          cases j with
          | zero =>
              have hrest : 0 < rest.countP test :=
                List.countP_pos_iff.mpr ⟨a, List.mem_of_getElem? hi, ha⟩
              have hhead : head = b := by simpa using hj
              rw [List.countP_cons, hhead, if_pos hb]
              omega
          | succ j =>
              have hrest := @ih i j hi hj (by omega)
              rw [List.countP_cons]
              omega

/-- A gate that two callers share and that can be fetched has three references. -/
theorem references_ne_two {j gate : Nat} {key : κ} (hc : s.callers[index]? = some c)
    (hd : s.callers[j]? = some d) (hne : index ≠ j) (hgate : c.stage.gate? = some gate)
    (hgate' : d.stage.gate? = some gate) (hcurrent : s.gateOf? key = some gate) :
    s.references gate ≠ 2 := by
  have hcallers : 2 ≤ s.callers.countP (·.stage.gate? = some gate) :=
    two_le_countP hc hd hne (by simpa using hgate) (by simpa using hgate')
  have hpending : 0 < s.pending.countP (·.2 = gate) :=
    List.countP_pos_iff.mpr ⟨_, mem_pending_of_gateOf? hcurrent, by simp⟩
  unfold references
  omega

/-- A caller may move on if it gets neither a share nor a lock that it did not have. -/
theorem GatesShared.advance (hs : GatesShared s) (hc : s.callers[index]? = some c)
    (hkey : c'.key = c.key)
    (hgate : ∀ gate, c'.stage.gate? = some gate → c.stage.gate? = some gate)
    (hneeded : ∀ gate, c'.stage.needed? = some gate → c.stage.needed? = some gate)
    (hlock : c'.stage.holdsLock = true → c.stage.holdsLock = true) :
    GatesShared (s.setCaller index c') := by
  apply hs.setCaller hc hkey
  · intro gate hshared
    exact .inl (hgate gate hshared)
  · intro gate hshared
    exact hs.needed c (List.mem_of_getElem? hc) gate (hneeded gate hshared)
  · intro hholds gate hshared
    exact .inl ⟨hlock hholds, hgate gate hshared⟩

theorem GatesShared.share (hs : GatesShared s) (hc : s.callers[index]? = some c) {gate : Nat}
    (hgate : s.gateOf? c.key = some gate) :
    GatesShared (s.setCaller index (c.become (.waiting gate))) := by
  have hkey : (c.become (.waiting gate)).key = c.key := rfl
  refine hs.setCaller hc hkey ?_ ?_ ?_
  · rintro _ ⟨⟩
    exact .inr hgate
  · rintro _ ⟨⟩
    exact hgate
  · rintro ⟨⟩

theorem GatesShared.lock (hs : GatesShared s) (hc : s.callers[index]? = some c) {gate : Nat}
    (hstage : c.stage = .waiting gate) (hfree : s.isLocked gate = false) :
    GatesShared (s.setCaller index (c.become (.entered gate))) := by
  have hkey : (c.become (.entered gate)).key = c.key := rfl
  have hneeded : c.stage.needed? = some gate := by rw [hstage]; rfl
  refine hs.setCaller hc hkey ?_ ?_ ?_
  · rintro _ ⟨⟩
    exact .inl (Stage.gate?_of_needed? hneeded)
  · rintro _ ⟨⟩
    exact hs.needed c (List.mem_of_getElem? hc) gate hneeded
  · rintro - _ ⟨⟩
    exact .inr hfree

theorem GatesShared.removeLast (hs : GatesShared s) (hc : s.callers[index]? = some c)
    {gate : Nat} {result : Except ε ν} (hstage : c.stage = .releasing gate result)
    (hcurrent : s.gateOf? c.key = some gate) (hlast : s.references gate = 2) :
    GatesShared (State.setCaller { s with pending := s.pending.filter (·.1 ≠ c.key) }
      index (c.become (.dropping gate result))) := by
  have hgate : c.stage.gate? = some gate := by rw [hstage]; rfl
  have hkey : (c.become (.dropping gate result)).key = c.key := rfl
  have hdropping : GatesShared (s.setCaller index (c.become (.dropping gate result))) := by
    refine hs.advance hc hkey ?_ ?_ ?_
    · rintro _ ⟨⟩
      exact hgate
    · rintro _ ⟨⟩
    · rintro ⟨⟩
  apply hdropping.remove
  intro d hd other hneeded hsame
  obtain ⟨j, hj⟩ := List.mem_iff_getElem?.mp hd
  rcases getElem?_callers_setCaller hj with ⟨-, rfl⟩ | ⟨hne, hold⟩
  · cases hneeded
  · -- Anybody else who needs the gate of the key would be its third reference.
    have hother := hs.needed d (List.mem_of_getElem? hold) other hneeded
    rw [hsame, hcurrent, Option.some.injEq] at hother
    subst hother
    have hgate' := Stage.gate?_of_needed? hneeded
    exact references_ne_two hc hold (Ne.symm hne) hgate hgate' hcurrent hlast

theorem GatesShared.withResolved (hs : GatesShared s) (resolved : Cache κ ν) :
    GatesShared { s with resolved } :=
  ⟨hs.shared_lt, hs.pending_lt, hs.pending_inj, hs.pending_key, hs.shared_key, hs.needed,
    hs.one_holder⟩

theorem GatesShared.steps (hs : GatesShared s) (hc : s.callers[index]? = some c)
    (hsteps : s.Steps index c s') : GatesShared s' := by
  cases hsteps with
  | share hstage hgate => exact hs.share hc hgate
  | make hstage hgate => exact (hs.make hgate).share hc (gateOf?_make hgate)
  | lock hstage hfree => exact hs.lock hc hstage hfree
  | @succeed gate value hstage houtcome =>
      have hstored := hs.withResolved (s.resolved.insert c.key value)
      refine hstored.advance hc rfl ?_ ?_ ?_ <;>
        simp [hstage, Caller.computed, Stage.gate?, Stage.needed?, Stage.holdsLock]
  | remove hstage hgate hlast => exact hs.removeLast hc hstage hgate hlast
  | _ =>
      refine hs.advance hc rfl ?_ ?_ ?_ <;>
        simp_all [Caller.become, Caller.computed, Stage.gate?, Stage.needed?, Stage.holdsLock]

theorem GatesShared.reaches (hs : GatesShared s) (hreaches : s.Reaches s') :
    GatesShared s' := by
  induction hreaches with
  | refl => exact hs
  | tail _ hstep ih =>
      obtain ⟨index, hstep⟩ := hstep
      obtain ⟨c, hc, hsteps⟩ := step_eq_some_iff.mp hstep
      exact ih.steps hc hsteps

/-! ## What the gates give -/

theorem GatesShared.eq_of_holdsLock (hs : GatesShared s) {i j gate gate' : Nat}
    (hc : s.callers[i]? = some c) (hd : s.callers[j]? = some d) (hkey : c.key = d.key)
    (hholds : c.stage.holdsLock = true) (hholds' : d.stage.holdsLock = true)
    (hneeded : c.stage.needed? = some gate) (hneeded' : d.stage.needed? = some gate') :
    i = j := by
  have hcurrent := hs.needed c (List.mem_of_getElem? hc) gate hneeded
  have hcurrent' := hs.needed d (List.mem_of_getElem? hd) gate' hneeded'
  rw [hkey, hcurrent', Option.some.injEq] at hcurrent
  subst hcurrent
  exact hs.one_holder i j c d gate' hc hd hholds hholds' (Stage.gate?_of_needed? hneeded)
    (Stage.gate?_of_needed? hneeded')

theorem GatesShared.eq_of_computing (hs : GatesShared s) {i j : Nat}
    (hc : s.callers[i]? = some c) (hd : s.callers[j]? = some d) (hkey : c.key = d.key)
    (hcomputing : c.stage.isComputing = true) (hcomputing' : d.stage.isComputing = true) :
    i = j := by
  have hholds : ∀ stage : Stage ν ε, stage.isComputing = true →
      stage.holdsLock = true ∧ ∃ gate, stage.needed? = some gate := by
    intro stage hstage
    cases stage with
    | computing gate => exact ⟨rfl, gate, rfl⟩
    | _ => cases hstage
  obtain ⟨hlock, gate, hneeded⟩ := hholds c.stage hcomputing
  obtain ⟨hlock', gate', hneeded'⟩ := hholds d.stage hcomputing'
  exact hs.eq_of_holdsLock hc hd hkey hlock hlock' hneeded hneeded'

/-- A caller that cannot move has returned or waits for another caller with its key,
which holds the lock of the gate that both share. -/
theorem GatesShared.blocked (hs : GatesShared s) (hc : s.callers[index]? = some c)
    (hstep : s.step index = none) :
    (∃ result, c.stage = .finished result) ∨
      ∃ j d gate, j ≠ index ∧ s.callers[j]? = some d ∧ c.stage = .waiting gate ∧
        d.stage.gate? = some gate ∧ d.stage.holdsLock = true ∧ d.key = c.key := by
  have hmove : s.move index c = none := by
    rwa [step, hc, Option.bind_some] at hstep
  unfold move at hmove
  cases hstage : c.stage with
  | finished result => exact .inl ⟨result, rfl⟩
  | waiting gate =>
      cases hlocked : s.isLocked gate with
      | false => simp [hstage, hlocked] at hmove
      | true =>
          obtain ⟨d, hd, hholds, hgate⟩ := exists_holder_of_isLocked hlocked
          obtain ⟨j, hj⟩ := List.mem_iff_getElem?.mp hd
          have hne : j ≠ index := by
            rintro rfl
            rw [hc, Option.some.injEq] at hj
            rw [← hj, hstage] at hholds
            cases hholds
          have hmem := List.mem_of_getElem? hc
          have hgate' : c.stage.gate? = some gate := by rw [hstage]; rfl
          exact .inr ⟨j, d, gate, hne, hj, rfl, hgate, hholds,
            hs.shared_key d hd c hmem gate hgate hgate'⟩
  | arriving =>
      cases hvalue : s.resolved.get? c.key <;> simp [hstage, hvalue] at hmove
  | entered gate =>
      cases hvalue : s.resolved.get? c.key <;> simp [hstage, hvalue] at hmove
  | _ => simp [hstage] at hmove

end State

end Forwarding.Gate
