import Forwarding.Proofs.Resolver.GateSteps

/-!
# One value per key

Whatever the order of their steps, callers that ask for one key get one value: at
most one of them computes at a time and at most one computation succeeds, after
which nobody computes for the key again.
-/

namespace Forwarding.Gate

variable {κ ν ε : Type} [DecidableEq κ] {c c' d : Caller κ ν ε} {resolved : Cache κ ν}

namespace Caller

/-- Whether a caller has computed and got a value. -/
def Succeeded (c : Caller κ ν ε) (value : ν) : Prop :=
  c.outcome = .ok value ∧ 0 < c.computations

structure Sound (resolved : Cache κ ν) (c : Caller κ ν ε) : Prop where
  missed : c.stage.isComputing = true → resolved.get? c.key = none
  before : c.stage.carried? = none → c.computations = 0
  once : c.computations ≤ 1
  value : ∀ value, c.stage.carried? = some (.ok value) → resolved.get? c.key = some value
  failure : ∀ error, c.stage.carried? = some (.error error) →
    c.outcome = .error error ∧ c.computations = 1
  success : ∀ value, c.Succeeded value → resolved.get? c.key = some value

theorem Sound.become (hc : c.Sound resolved) {stage : Stage ν ε}
    (hmissed : stage.isComputing = true → resolved.get? c.key = none)
    (hbefore : stage.carried? = none → c.stage.carried? = none)
    (hcarried : ∀ result, stage.carried? = some result →
      c.stage.carried? = some result ∨
        ∃ value, result = .ok value ∧ resolved.get? c.key = some value) :
    (c.become stage).Sound resolved where
  missed := hmissed
  before := fun hnone => hc.before (hbefore hnone)
  once := hc.once
  value := by
    intro value hsome
    rcases hcarried _ hsome with hold | ⟨value', hresult, hstored⟩
    · exact hc.value value hold
    · cases hresult
      exact hstored
  failure := by
    intro error hsome
    rcases hcarried _ hsome with hold | ⟨value, hresult, -⟩
    · exact hc.failure error hold
    · cases hresult
  success := hc.success

theorem Sound.computations_eq_zero (hc : c.Sound resolved)
    (hcomputing : c.stage.isComputing = true) : c.computations = 0 := by
  apply hc.before
  cases hstage : c.stage with
  | computing gate => rfl
  | _ => simp [hstage, Stage.isComputing] at hcomputing

theorem Sound.failed (hc : c.Sound resolved) {gate : Nat} {error : ε}
    (hstage : c.stage = .computing gate) (houtcome : c.outcome = .error error) :
    (c.computed gate).Sound resolved := by
  have hzero := hc.computations_eq_zero (by rw [hstage]; rfl)
  constructor <;> simp [computed, Succeeded, Stage.isComputing, Stage.carried?, houtcome, hzero]

theorem Sound.succeeded (hc : c.Sound resolved) {gate : Nat} {value : ν}
    (hstage : c.stage = .computing gate) (houtcome : c.outcome = .ok value) :
    (c.computed gate).Sound (resolved.insert c.key value) := by
  have hzero := hc.computations_eq_zero (by rw [hstage]; rfl)
  constructor <;>
    simp [computed, Succeeded, Stage.isComputing, Stage.carried?, houtcome, hzero,
      Cache.get?_insert]

/-- A value for a key without one does not concern the callers that do not compute for
the key. -/
theorem Sound.insert (hd : d.Sound resolved) {key : κ} {value : ν}
    (hnone : resolved.get? key = none)
    (hidle : d.key = key → d.stage.isComputing = false) :
    d.Sound (resolved.insert key value) := by
  have hget : ∀ value', resolved.get? d.key = some value' →
      (resolved.insert key value).get? d.key = some value' := by
    intro value' hstored
    have hkey : key ≠ d.key := by
      rintro rfl
      rw [hnone] at hstored
      cases hstored
    rwa [Cache.get?_insert, if_neg hkey]
  constructor
  · intro hcomputing
    have hkey : key ≠ d.key := by
      rintro rfl
      rw [hidle rfl] at hcomputing
      cases hcomputing
    rw [Cache.get?_insert, if_neg hkey]
    exact hd.missed hcomputing
  · exact hd.before
  · exact hd.once
  · intro value' hsome
    exact hget value' (hd.value value' hsome)
  · exact hd.failure
  · intro value' hsucceeded
    exact hget value' (hd.success value' hsucceeded)

end Caller

namespace State

variable {s s' s₀ : State κ ν ε} {index : Nat} {first : Cache κ ν}

/-- What holds of the values that are stored, the first of which were there from the
beginning. -/
structure ValuesSound (first : Cache κ ν) (s : State κ ν ε) : Prop where
  callers : ∀ c ∈ s.callers, c.Sound s.resolved
  one_success : ∀ (i j : Nat) (c d : Caller κ ν ε) (value value' : ν),
    s.callers[i]? = some c → s.callers[j]? = some d → c.Succeeded value →
    d.Succeeded value' → c.key = d.key → i = j
  origin : ∀ key value, s.resolved.get? key = some value →
    first.get? key = some value ∨ ∃ c ∈ s.callers, c.key = key ∧ c.Succeeded value

theorem Initial.valuesSound (hinitial : Initial s) : ValuesSound s.resolved s := by
  constructor
  · intro c hc
    have hstage := hinitial.arriving c hc
    have hzero := hinitial.computations c hc
    constructor <;> simp [hstage, hzero, Caller.Succeeded, Stage.isComputing, Stage.carried?]
  · intro i j c d value value' hi hj hsucceeded
    have hzero := hinitial.computations c (List.mem_of_getElem? hi)
    have hpos := hsucceeded.2
    omega
  · intro key value hstored
    exact .inl hstored

theorem ValuesSound.setCaller (hs : ValuesSound first s) (hc : s.callers[index]? = some c)
    (hkey : c'.key = c.key) (hsucceeded : ∀ value, c'.Succeeded value ↔ c.Succeeded value)
    (hsound : c'.Sound s.resolved) : ValuesSound first (s.setCaller index c') := by
  constructor
  · intro d hd
    rcases mem_callers_setCaller hd with hold | rfl
    · exact hs.callers d hold
    · exact hsound
  · have hold : ∀ (j : Nat) (d : Caller κ ν ε) (value : ν),
        (s.setCaller index c').callers[j]? = some d → d.Succeeded value →
        ∃ d', s.callers[j]? = some d' ∧ d'.Succeeded value ∧ d'.key = d.key := by
      intro j d value hj hd
      rcases getElem?_callers_setCaller hj with ⟨rfl, rfl⟩ | ⟨-, hj'⟩
      · exact ⟨c, hc, (hsucceeded value).mp hd, hkey.symm⟩
      · exact ⟨d, hj', hd, rfl⟩
    intro i j d e value value' hi hj hd he hsame
    obtain ⟨d', hi', hd', hkey'⟩ := hold i d value hi hd
    obtain ⟨e', hj', he', hkey''⟩ := hold j e value' hj he
    exact hs.one_success i j d' e' value value' hi' hj' hd' he'
      (hkey'.trans (hsame.trans hkey''.symm))
  · intro key value hstored
    rcases hs.origin key value hstored with hfirst | ⟨d, hd, hd', hd''⟩
    · exact .inl hfirst
    · obtain ⟨j, hj⟩ := List.mem_iff_getElem?.mp hd
      by_cases hsame : index = j
      · subst hsame
        rw [hc, Option.some.injEq] at hj
        subst hj
        exact .inr ⟨c', mem_setCaller_self hc, hkey.trans hd', (hsucceeded value).mpr hd''⟩
      · exact .inr ⟨d, mem_setCaller_of_ne hj hsame, hd', hd''⟩

theorem ValuesSound.succeed (hs : ValuesSound first s) (hgates : GatesShared s)
    (hc : s.callers[index]? = some c) {gate : Nat} {value : ν}
    (hstage : c.stage = .computing gate) (houtcome : c.outcome = .ok value) :
    ValuesSound first (State.setCaller { s with resolved := s.resolved.insert c.key value }
      index (c.computed gate)) := by
  have hsound := hs.callers c (List.mem_of_getElem? hc)
  have hcomputing : c.stage.isComputing = true := by rw [hstage]; rfl
  have hnone := hsound.missed hcomputing
  have hzero := hsound.computations_eq_zero hcomputing
  -- Whoever succeeded for the key before has stored a value, but there was none.
  have hothers : ∀ d ∈ s.callers, ∀ value', d.Succeeded value' → d.key ≠ c.key := by
    intro d hd value' hsucceeded hkey
    have hstored := (hs.callers d hd).success value' hsucceeded
    rw [hkey, hnone] at hstored
    cases hstored
  constructor
  · intro d hd
    obtain ⟨j, hj⟩ := List.mem_iff_getElem?.mp hd
    rcases getElem?_callers_setCaller hj with ⟨-, rfl⟩ | ⟨hne, hj'⟩
    · exact hsound.succeeded hstage houtcome
    · apply (hs.callers d (List.mem_of_getElem? hj')).insert hnone
      intro hkey
      apply Bool.eq_false_iff.mpr
      intro hbusy
      exact hne (hgates.eq_of_computing hj' hc hkey hbusy hcomputing)
  · intro i j d e value₁ value₂ hi hj hd he hkey
    rcases getElem?_callers_setCaller hi with ⟨rfl, rfl⟩ | ⟨hne, hi'⟩
    · rcases getElem?_callers_setCaller hj with ⟨rfl, rfl⟩ | ⟨-, hj'⟩
      · rfl
      · exact (hothers e (List.mem_of_getElem? hj') value₂ he hkey.symm).elim
    · rcases getElem?_callers_setCaller hj with ⟨rfl, rfl⟩ | ⟨-, hj'⟩
      · exact (hothers d (List.mem_of_getElem? hi') value₁ hd hkey).elim
      · exact hs.one_success i j d e value₁ value₂ hi' hj' hd he hkey
  · intro key value' hstored
    have hget : (s.resolved.insert c.key value).get? key = some value' := hstored
    rw [Cache.get?_insert] at hget
    by_cases hkey : c.key = key
    · rw [if_pos hkey, Option.some.injEq] at hget
      subst hget
      exact .inr ⟨c.computed gate, mem_setCaller_self hc, hkey, houtcome, Nat.succ_pos _⟩
    · rw [if_neg hkey] at hget
      rcases hs.origin key value' hget with hfirst | ⟨d, hd, hd', hd''⟩
      · exact .inl hfirst
      · obtain ⟨j, hj⟩ := List.mem_iff_getElem?.mp hd
        have hne : index ≠ j := by
          rintro rfl
          rw [hc, Option.some.injEq] at hj
          exact hkey (hj ▸ hd')
        exact .inr ⟨d, mem_setCaller_of_ne hj hne, hd', hd''⟩

/-- A caller may move on with what it carries or with the value that is stored. -/
theorem ValuesSound.become (hs : ValuesSound first s) (hc : s.callers[index]? = some c)
    {stage : Stage ν ε}
    (hmissed : stage.isComputing = true → s.resolved.get? c.key = none)
    (hbefore : stage.carried? = none → c.stage.carried? = none)
    (hcarried : ∀ result, stage.carried? = some result →
      c.stage.carried? = some result ∨
        ∃ value, result = .ok value ∧ s.resolved.get? c.key = some value) :
    ValuesSound first (s.setCaller index (c.become stage)) := by
  have hsound := hs.callers c (List.mem_of_getElem? hc)
  exact hs.setCaller hc rfl (fun _ => Iff.rfl) (hsound.become hmissed hbefore hcarried)

theorem ValuesSound.fail (hs : ValuesSound first s) (hc : s.callers[index]? = some c)
    {gate : Nat} {error : ε} (hstage : c.stage = .computing gate)
    (houtcome : c.outcome = .error error) :
    ValuesSound first (s.setCaller index (c.computed gate)) := by
  have hsound := hs.callers c (List.mem_of_getElem? hc)
  have hsucceeded : ∀ value, (c.computed gate).Succeeded value ↔ c.Succeeded value := by
    intro value
    simp [Caller.Succeeded, Caller.computed, houtcome]
  have hkey : (c.computed gate).key = c.key := rfl
  exact hs.setCaller hc hkey hsucceeded (hsound.failed hstage houtcome)

theorem ValuesSound.withPending (hs : ValuesSound first s) (pending : List (κ × Nat))
    (nextGate : Nat) : ValuesSound first { s with pending, nextGate } :=
  ⟨hs.callers, hs.one_success, hs.origin⟩

theorem ValuesSound.steps (hs : ValuesSound first s) (hgates : GatesShared s)
    (hc : s.callers[index]? = some c) (hsteps : s.Steps index c s') :
    ValuesSound first s' := by
  cases hsteps with
  | make hstage hgate =>
      have hmade := hs.withPending (s.pending ++ [(c.key, s.nextGate)]) (s.nextGate + 1)
      apply hmade.become hc <;> simp [hstage, Stage.isComputing, Stage.carried?]
  | succeed hstage houtcome => exact hs.succeed hgates hc hstage houtcome
  | fail hstage houtcome => exact hs.fail hc hstage houtcome
  | remove hstage hgate hlast =>
      have hremoved := hs.withPending (s.pending.filter (·.1 ≠ c.key)) s.nextGate
      apply hremoved.become hc <;> simp [hstage, Stage.isComputing, Stage.carried?]
  | _ => apply hs.become hc <;> simp_all [Stage.isComputing, Stage.carried?]

theorem ValuesSound.reaches (hs : ValuesSound first s) (hgates : GatesShared s)
    (hreaches : s.Reaches s') : ValuesSound first s' := by
  induction hreaches with
  | refl => exact hs
  | tail hbefore hstep ih =>
      obtain ⟨index, hstep⟩ := hstep
      obtain ⟨c, hc, hsteps⟩ := step_eq_some_iff.mp hstep
      exact ih.steps (hgates.reaches hbefore) hc hsteps

theorem ValuesSound.stored_of_reaches (hs : ValuesSound first s) (hgates : GatesShared s)
    {key : κ} {value : ν} (hstored : s.resolved.get? key = some value)
    (hreaches : s.Reaches s') : s'.resolved.get? key = some value := by
  induction hreaches with
  | refl => exact hstored
  | tail hbefore hstep ih =>
      obtain ⟨index, hstep⟩ := hstep
      obtain ⟨c, hc, hsteps⟩ := step_eq_some_iff.mp hstep
      cases hsteps with
      | @succeed gate value' hstage houtcome =>
          have hsound := (hs.reaches hgates hbefore).callers c (List.mem_of_getElem? hc)
          have hnone := hsound.missed (by rw [hstage]; rfl)
          have hkey : c.key ≠ key := by
            rintro rfl
            rw [hnone] at ih
            cases ih
          change (Cache.insert _ c.key value').get? key = some value
          rwa [Cache.get?_insert, if_neg hkey]
      | _ => exact ih

/-! ## What callers can rely on -/

/-- What callers can rely on in a state that steps lead to, if some values were there
from the beginning. -/
structure OncePerKey (first : Cache κ ν) (s : State κ ν ε) : Prop where
  one_computing : ∀ (i j : Nat) (c d : Caller κ ν ε),
    s.callers[i]? = some c → s.callers[j]? = some d →
    c.stage.isComputing = true → d.stage.isComputing = true → c.key = d.key → i = j
  computed_once : ∀ c ∈ s.callers, c.computations ≤ 1
  one_success : ∀ (i j : Nat) (c d : Caller κ ν ε) (value value' : ν),
    s.callers[i]? = some c → s.callers[j]? = some d →
    c.Succeeded value → d.Succeeded value' → c.key = d.key → i = j
  /-- After a success nobody computes for the key, and its value stays. -/
  settled : ∀ c ∈ s.callers, ∀ value, c.Succeeded value → ∀ s', s.Reaches s' →
    s'.resolved.get? c.key = some value ∧
      ∀ d ∈ s'.callers, d.key = c.key → d.stage.isComputing = false
  /-- The stored value is what everybody with the key returns with. -/
  returned : ∀ c ∈ s.callers, ∀ value, c.stage = .finished (.ok value) →
    ∀ s', s.Reaches s' → s'.resolved.get? c.key = some value
  stored : ∀ key value, s.resolved.get? key = some value →
    first.get? key = some value ∨ ∃ c ∈ s.callers, c.key = key ∧ c.Succeeded value
  /-- A failure is the caller's own. -/
  failed : ∀ c ∈ s.callers, ∀ error, c.stage = .finished (.error error) →
    c.outcome = .error error ∧ c.computations = 1
  /-- Who cannot move has returned or waits for the lock that another one with the key
  holds. -/
  blocked : ∀ (i : Nat) (c : Caller κ ν ε), s.callers[i]? = some c → s.step i = none →
    (∃ result, c.stage = .finished result) ∨
      ∃ j d gate, j ≠ i ∧ s.callers[j]? = some d ∧ c.stage = .waiting gate ∧
        d.stage.gate? = some gate ∧ d.stage.holdsLock = true ∧ d.key = c.key

theorem once_per_key (hinitial : Initial s₀) (hreaches : s₀.Reaches s) :
    OncePerKey s₀.resolved s := by
  have hgates : GatesShared s := hinitial.gatesShared.reaches hreaches
  have hvalues : ValuesSound s₀.resolved s :=
    hinitial.valuesSound.reaches hinitial.gatesShared hreaches
  constructor
  · intro i j c d hc hd hcomputing hcomputing' hkey
    exact hgates.eq_of_computing hc hd hkey hcomputing hcomputing'
  · intro c hc
    exact (hvalues.callers c hc).once
  · exact hvalues.one_success
  · intro c hc value hsucceeded s' hlater
    have hstored := (hvalues.callers c hc).success value hsucceeded
    have hstays := hvalues.stored_of_reaches hgates hstored hlater
    refine ⟨hstays, ?_⟩
    intro d hd hkey
    apply Bool.eq_false_iff.mpr
    intro hbusy
    have hnone := ((hvalues.reaches hgates hlater).callers d hd).missed hbusy
    rw [hkey, hstays] at hnone
    cases hnone
  · intro c hc value hfinished s' hlater
    have hcarried : c.stage.carried? = some (.ok value) := by rw [hfinished]; rfl
    have hstored := (hvalues.callers c hc).value value hcarried
    exact hvalues.stored_of_reaches hgates hstored hlater
  · exact hvalues.origin
  · intro c hc error hfinished
    have hcarried : c.stage.carried? = some (.error error) := by rw [hfinished]; rfl
    exact (hvalues.callers c hc).failure error hcarried
  · intro i c hc hstep
    exact hgates.blocked hc hstep

/-- Three callers of one key, of whom the first fails. -/
def contended : State Nat Nat String where
  resolved := .empty
  pending := []
  nextGate := 0
  callers := [⟨7, .error "lost", .arriving, 0⟩, ⟨7, .ok 1, .arriving, 0⟩,
    ⟨7, .ok 2, .arriving, 0⟩]

theorem contended_once_per_key :
    contended.Initial ∧ ∃ s, contended.Reaches s ∧ OncePerKey contended.resolved s ∧
      s.callers.map Caller.stage =
        [.finished (.error "lost"), .finished (.ok 1), .leaving 0 (.ok 1)] ∧
      s.resolved.get? 7 = some 1 := by
  have hinitial : contended.Initial := by
    constructor <;> simp [contended]
  have hsteps : ∃ s,
      [0, 1, 2, 0, 1, 2, 0, 0, 0, 0, 0, 0, 1, 1, 1, 1, 1, 1, 2, 2].foldlM State.step contended =
        some s ∧
      s.callers.map Caller.stage =
        [.finished (.error "lost"), .finished (.ok 1), .leaving 0 (.ok 1)] ∧
      s.resolved.get? 7 = some 1 := ⟨_, rfl, rfl, rfl⟩
  obtain ⟨s, hfold, hstages, hvalue⟩ := hsteps
  have hreaches := reaches_of_foldlM hfold
  exact ⟨hinitial, s, hreaches, once_per_key hinitial hreaches, hstages, hvalue⟩

end State

end Forwarding.Gate
