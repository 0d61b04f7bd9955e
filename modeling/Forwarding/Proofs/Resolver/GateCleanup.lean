import Forwarding.Proofs.Resolver.GateSteps

/-!
# Gates that stay behind

A caller tests whether it is the last one with its gate while it still has a share
of its own.  Two callers can therefore count each other: each keeps the gate for the
other one, both give up their shares, and nobody is left to remove it.  The main
statement is that a gate stays behind in this way only: the last test of it was
made while another caller had tested it already and still had its share.
-/

namespace Forwarding.Gate

variable {κ ν ε : Type}

/-- The gate that a caller tests with its next step. -/
def Stage.testing? : Stage ν ε → Option Nat
  | .releasing gate _ => some gate
  | _ => none

/-- The gate that a caller has tested and still shares. -/
def Stage.tested? : Stage ν ε → Option Nat
  | .dropping gate _ => some gate
  | _ => none

theorem Stage.needed?_of_testing? {stage : Stage ν ε} {gate : Nat}
    (htesting : stage.testing? = some gate) : stage.needed? = some gate := by
  cases stage <;> simp_all [testing?, needed?, gate?]

theorem Stage.gate?_of_tested? {stage : Stage ν ε} {gate : Nat}
    (htested : stage.tested? = some gate) : stage.gate? = some gate := by
  cases stage <;> simp_all [tested?, gate?]

/-- Who shares a gate needs it or has tested it. -/
theorem Stage.needed?_of_gate? {stage : Stage ν ε} {gate : Nat}
    (hgate : stage.gate? = some gate) (htested : stage.tested? ≠ some gate) :
    stage.needed? = some gate := by
  cases stage <;> simp_all [tested?, needed?, gate?]

namespace State

variable {s s' s₀ : State κ ν ε} {index gate : Nat} {c c' d : Caller κ ν ε} {key : κ}

/-- Whether nobody stands between fetching a gate for the key and giving up its
share. -/
def Idle (s : State κ ν ε) (key : κ) : Prop :=
  ∀ c ∈ s.callers, c.key = key → c.stage.gate? = none

/-- Whether the next step of a caller tests a gate of the key. -/
def Tests (s : State κ ν ε) (key : κ) (index : Nat) : Prop :=
  ∃ c gate, s.callers[index]? = some c ∧ c.key = key ∧ c.stage.testing? = some gate

/-- Whether another caller has tested that gate already and still shares it. -/
def TestsCrowded (s : State κ ν ε) (key : κ) (index : Nat) : Prop :=
  ∃ c gate, s.callers[index]? = some c ∧ c.key = key ∧ c.stage.testing? = some gate ∧
    ∃ d ∈ s.callers, d.stage.tested? = some gate

variable [DecidableEq κ]

def ReachesUntested (key : κ) : State κ ν ε → State κ ν ε → Prop :=
  Relation.ReflTransGen fun s s' => ∃ index, ¬s.Tests key index ∧ s.step index = some s'

/-- Whether steps lead from one state to another in which the last test of a gate of
the key is crowded. -/
def LastTestCrowded (s₀ : State κ ν ε) (key : κ) (s : State κ ν ε) : Prop :=
  ∃ t t' index, s₀.Reaches t ∧ t.TestsCrowded key index ∧ t.step index = some t' ∧
    ReachesUntested key t' s

/-! ## One gate for a key -/

theorem gateOf?_eq_none_iff : s.gateOf? key = none ↔ ∀ gate, (key, gate) ∉ s.pending := by
  simp only [gateOf?, Option.map_eq_none_iff, List.find?_eq_none, decide_eq_true_eq]
  constructor
  · intro hnone gate hentry
    exact hnone _ hentry rfl
  · intro hnone entry hentry hkey
    exact hnone entry.2 (hkey ▸ hentry)

theorem gateOf?_removed :
    State.gateOf? { s with pending := s.pending.filter (·.1 ≠ key) } key = none := by
  rw [gateOf?_eq_none_iff]
  simp

theorem gateOf?_append_of_ne {other : κ} (next : Nat) (hother : other ≠ key) :
    State.gateOf? { s with pending := s.pending ++ [(other, gate)], nextGate := next } key =
      s.gateOf? key := by
  rw [gateOf?_append, if_neg hother, Option.or_none]

theorem nodup_steps (hnodup : (s.pending.map Prod.fst).Nodup) (hsteps : s.Steps index c s') :
    (s'.pending.map Prod.fst).Nodup := by
  cases hsteps with
  | make hstage hgate =>
      have hnew : c.key ∉ s.pending.map Prod.fst := by
        simpa using gateOf?_eq_none_iff.mp hgate
      change ((s.pending ++ [(c.key, s.nextGate)]).map Prod.fst).Nodup
      rw [List.map_append, List.nodup_append]
      refine ⟨hnodup, by simp, ?_⟩
      intro key hkey other hother heq
      have hother : other = c.key := by simpa using hother
      exact hnew (hother ▸ heq ▸ hkey)
  | remove hstage hgate hlast =>
      change ((s.pending.filter (·.1 ≠ c.key)).map Prod.fst).Nodup
      exact hnodup.sublist (List.filter_sublist.map Prod.fst)
  | _ => exact hnodup

theorem nodup_of_reaches (hinitial : Initial s₀) (hreaches : s₀.Reaches s) :
    (s.pending.map Prod.fst).Nodup := by
  induction hreaches with
  | refl => simp [hinitial.pending]
  | tail _ hstep ih =>
      obtain ⟨index, hstep⟩ := hstep
      obtain ⟨c, -, hsteps⟩ := step_eq_some_iff.mp hstep
      exact nodup_steps ih hsteps

/-! ## Counting the shares -/

omit [DecidableEq κ] in
theorem countP_snd_le_one {pending : List (κ × Nat)} (hnodup : (pending.map Prod.fst).Nodup)
    (hinj : ∀ first second, (first, gate) ∈ pending → (second, gate) ∈ pending →
      first = second) :
    pending.countP (·.2 = gate) ≤ 1 := by
  induction pending with
  | nil => simp
  | cons entry rest ih =>
      rw [List.map_cons, List.nodup_cons] at hnodup
      by_cases hentry : entry.2 = gate
      · have hrest : rest.countP (·.2 = gate) = 0 := by
          rw [List.countP_eq_zero]
          intro other hother hsame
          have hgate : other.2 = gate := by simpa using hsame
          have hkey : entry.1 = other.1 := by
            apply hinj
            · simp [← hentry]
            · simp [← hgate, hother]
          exact hnodup.1 (hkey ▸ List.mem_map_of_mem hother)
        simp [hentry, hrest]
      · have hrest := ih hnodup.2 fun first second hfirst hsecond =>
          hinj first second (List.mem_cons_of_mem _ hfirst) (List.mem_cons_of_mem _ hsecond)
        simpa [hentry] using hrest

/-- A caller whose gate has more references than its own and the one for being
fetchable shares it with another caller. -/
theorem exists_sharer (hs : GatesShared s) (hnodup : (s.pending.map Prod.fst).Nodup)
    (hc : s.callers[index]? = some c) (hgate : c.stage.gate? = some gate)
    (hcurrent : s.gateOf? c.key = some gate) (hshared : s.references gate ≠ 2) :
    ∃ j d, j ≠ index ∧ s.callers[j]? = some d ∧ d.stage.gate? = some gate := by
  obtain ⟨hindex, hget⟩ := List.getElem?_eq_some_iff.mp hc
  have hle : s.pending.countP (·.2 = gate) ≤ 1 :=
    countP_snd_le_one hnodup fun first second => hs.pending_inj first second gate
  have hpos : 0 < s.pending.countP (·.2 = gate) :=
    List.countP_pos_iff.mpr ⟨_, mem_pending_of_gateOf? hcurrent, by simp⟩
  have hown : 0 < s.callers.countP (·.stage.gate? = some gate) :=
    List.countP_pos_iff.mpr ⟨c, List.mem_of_getElem? hc, by simpa using hgate⟩
  -- Without the caller itself there is still somebody to be counted.
  have hothers : 0 < (s.setCaller index (c.become .arriving)).callers.countP
      (·.stage.gate? = some gate) := by
    have hcount := List.countP_set (p := fun d => decide (d.stage.gate? = some gate))
      (a := c.become .arriving) hindex
    have hgone : (c.become .arriving : Caller κ ν ε).stage.gate? ≠ some gate := by
      simp [Caller.become, Stage.gate?]
    rw [hget, if_pos (by simpa using hgate), if_neg (by simpa using hgone)] at hcount
    unfold references at hshared
    change 0 < (s.callers.set index (c.become .arriving)).countP _
    omega
  obtain ⟨d, hd, hsharer⟩ := List.countP_pos_iff.mp hothers
  obtain ⟨j, hj⟩ := List.mem_iff_getElem?.mp hd
  rcases getElem?_callers_setCaller hj with ⟨-, rfl⟩ | ⟨hne, hold⟩
  · simp [Caller.become, Stage.gate?] at hsharer
  · exact ⟨j, d, hne, hold, by simpa using hsharer⟩

/-! ## Who needs the gate of a key -/

/-- Whether a gate of the key that can be fetched is needed by a caller. -/
def Attended (s : State κ ν ε) (key : κ) : Prop :=
  ∀ gate, s.gateOf? key = some gate →
    ∃ c ∈ s.callers, c.key = key ∧ c.stage.needed? = some gate

theorem Initial.attended (hinitial : Initial s) (key : κ) : s.Attended key := by
  intro gate hgate
  have hnone : s.gateOf? key = none := by
    rw [gateOf?_eq_none_iff]
    simp [hinitial.pending]
  rw [hnone] at hgate
  cases hgate

theorem Attended.not_idle (hattended : s.Attended key) (hgate : s.gateOf? key = some gate) :
    ¬s.Idle key := by
  intro hidle
  obtain ⟨c, hc, hkey, hneeded⟩ := hattended gate hgate
  have hshared := Stage.gate?_of_needed? hneeded
  rw [hidle c hc hkey] at hshared
  cases hshared

theorem Attended.setCaller (hattended : s.Attended key) (hc : s.callers[index]? = some c)
    (hkey : c'.key = c.key)
    (hneeded : c.key = key → ∀ gate, c.stage.needed? = some gate →
      c'.stage.needed? = some gate) :
    (s.setCaller index c').Attended key := by
  intro gate hgate
  obtain ⟨d, hd, hdkey, hdneeded⟩ := hattended gate hgate
  obtain ⟨j, hj⟩ := List.mem_iff_getElem?.mp hd
  by_cases hsame : index = j
  · subst hsame
    rw [hc, Option.some.injEq] at hj
    subst hj
    exact ⟨c', mem_setCaller_self hc, hkey.trans hdkey, hneeded hdkey gate hdneeded⟩
  · exact ⟨d, mem_setCaller_of_ne hj hsame, hdkey, hdneeded⟩

theorem Attended.of_gateOf? {other : State κ ν ε} (hattended : s.Attended key)
    (hcallers : other.callers = s.callers) (hgate : other.gateOf? key = s.gateOf? key) :
    other.Attended key := by
  intro gate hcurrent
  rw [hgate] at hcurrent
  rw [hcallers]
  exact hattended gate hcurrent

theorem Attended.make (hattended : s.Attended key) (hc : s.callers[index]? = some c)
    (hgate : s.gateOf? c.key = none) :
    (State.setCaller { s with
        pending := s.pending ++ [(c.key, s.nextGate)]
        nextGate := s.nextGate + 1 }
      index (c.become (.waiting s.nextGate))).Attended key := by
  by_cases hkey : c.key = key
  · intro gate hcurrent
    subst hkey
    have hmade : State.gateOf? { s with
        pending := s.pending ++ [(c.key, s.nextGate)]
        nextGate := s.nextGate + 1 } c.key = some s.nextGate := gateOf?_make hgate
    exact ⟨_, mem_setCaller_self hc, rfl, hmade.symm.trans hcurrent⟩
  · have hothers : State.Attended { s with
        pending := s.pending ++ [(c.key, s.nextGate)]
        nextGate := s.nextGate + 1 } key :=
      hattended.of_gateOf? rfl (gateOf?_append_of_ne _ hkey)
    exact hothers.setCaller hc rfl fun hsame => absurd hsame hkey

/-- Steps other than tests leave no gate behind. -/
theorem Attended.steps (hattended : s.Attended key) (hc : s.callers[index]? = some c)
    (huntested : ¬s.Tests key index) (hsteps : s.Steps index c s') : s'.Attended key := by
  have hother : ∀ gate, c.stage.testing? = some gate → c.key ≠ key := by
    intro gate htesting hkey
    exact huntested ⟨c, gate, hc, hkey, htesting⟩
  cases hsteps with
  | make hstage hgate => exact hattended.make hc hgate
  | @succeed gate value hstage houtcome =>
      have hstored : State.Attended { s with resolved := s.resolved.insert c.key value } key :=
        hattended
      exact hstored.setCaller hc rfl fun _ => by
        simp [hstage, Caller.computed, Stage.needed?, Stage.gate?]
  | @remove gate result hstage hgate hlast =>
      have hne := hother gate (by rw [hstage]; rfl)
      have hremoved : State.Attended { s with pending := s.pending.filter (·.1 ≠ c.key) } key :=
        hattended.of_gateOf? rfl (gateOf?_remove hne.symm)
      exact hremoved.setCaller hc rfl fun hsame => absurd hsame hne
  | @keep gate result hstage hshared =>
      have hne := hother gate (by rw [hstage]; rfl)
      exact hattended.setCaller hc rfl fun hsame => absurd hsame hne
  | _ =>
      refine hattended.setCaller hc rfl fun _ => ?_
      simp_all [Caller.become, Caller.computed, Stage.needed?, Stage.gate?]

/-- A test that is not crowded removes the gate, or another caller still needs it. -/
theorem attended_of_test (hs : GatesShared s) (hnodup : (s.pending.map Prod.fst).Nodup)
    (hc : s.callers[index]? = some c) (htesting : c.stage.testing? = some gate)
    (halone : ¬s.TestsCrowded c.key index) (hsteps : s.Steps index c s') :
    s'.Attended c.key := by
  have hneeded := Stage.needed?_of_testing? htesting
  have hcurrent := hs.needed c (List.mem_of_getElem? hc) gate hneeded
  have hgate := Stage.gate?_of_needed? hneeded
  cases hsteps with
  | remove hstage _ _ =>
      intro other hother
      have hnone : State.gateOf? { s with pending := s.pending.filter (·.1 ≠ c.key) } c.key =
          none := gateOf?_removed
      exact absurd (hother.symm.trans hnone) (by simp)
  | keep hstage hkept =>
      have hshared : s.references gate ≠ 2 := by
        intro hlast
        rw [hstage] at htesting
        cases htesting
        exact hkept ⟨hcurrent, hlast⟩
      obtain ⟨j, d, hne, hd, hdgate⟩ := exists_sharer hs hnodup hc hgate hcurrent hshared
      have hmem := List.mem_of_getElem? hd
      have hdkey := hs.shared_key d hmem c (List.mem_of_getElem? hc) gate hdgate hgate
      have hdneeded := Stage.needed?_of_gate? hdgate fun htested =>
        halone ⟨c, gate, hc, rfl, htesting, d, hmem, htested⟩
      intro other hother
      obtain rfl : gate = other := Option.some.inj (hcurrent.symm.trans hother)
      exact ⟨d, mem_setCaller_of_ne hd (Ne.symm hne), hdkey, hdneeded⟩
  | _ => simp_all [Stage.testing?]

theorem attended_or_crowded (hinitial : Initial s₀) (hreaches : s₀.Reaches s) (key : κ) :
    s.Attended key ∨ s₀.LastTestCrowded key s := by
  induction hreaches with
  | refl => exact .inl (hinitial.attended key)
  | @tail s s' hbefore hstep ih =>
      obtain ⟨index, hstep⟩ := hstep
      obtain ⟨c, hc, hsteps⟩ := step_eq_some_iff.mp hstep
      have hs : GatesShared s := hinitial.gatesShared.reaches hbefore
      have hnodup := nodup_of_reaches hinitial hbefore
      by_cases htests : s.Tests key index
      · by_cases hcrowded : s.TestsCrowded key index
        · exact .inr ⟨s, s', index, hbefore, hcrowded, hstep, .refl⟩
        · obtain ⟨c', gate, hc', hkey, htesting⟩ := htests
          rw [hc, Option.some.injEq] at hc'
          subst hc' hkey
          exact .inl (attended_of_test hs hnodup hc htesting hcrowded hsteps)
      · rcases ih with hattended | ⟨t, t', j, ht, hcrowded, hcrowdedStep, hrest⟩
        · exact .inl (hattended.steps hc htests hsteps)
        · exact .inr ⟨t, t', j, ht, hcrowded, hcrowdedStep, hrest.tail ⟨index, htests, hstep⟩⟩

/-! ## Gates that nobody removes -/

/-- A crowded test keeps the gate. -/
theorem gateOf?_of_crowded (hs : GatesShared s) (hcrowded : s.TestsCrowded key index)
    (hstep : s.step index = some s') : ∃ gate, s'.gateOf? key = some gate := by
  obtain ⟨c, gate, hc, rfl, htesting, d, hd, htested⟩ := hcrowded
  obtain ⟨c', hc', hsteps⟩ := step_eq_some_iff.mp hstep
  rw [hc, Option.some.injEq] at hc'
  subst hc'
  have hneeded := Stage.needed?_of_testing? htesting
  have hcurrent := hs.needed c (List.mem_of_getElem? hc) gate hneeded
  cases hsteps with
  | keep hstage hkept => exact ⟨gate, hcurrent⟩
  | remove hstage hgate hlast =>
      obtain rfl := Option.some.inj (hgate.symm.trans hcurrent)
      obtain ⟨j, hj⟩ := List.mem_iff_getElem?.mp hd
      have hne : index ≠ j := by
        rintro rfl
        rw [hc, Option.some.injEq] at hj
        rw [← hj, hstage] at htested
        cases htested
      exact absurd hlast (references_ne_two hc hj hne (Stage.gate?_of_needed? hneeded)
        (Stage.gate?_of_tested? htested) hcurrent)
  | _ => simp_all [Stage.testing?]

theorem gateOf?_of_untested (hgate : s.gateOf? key = some gate)
    (huntested : ¬s.Tests key index) (hstep : s.step index = some s') :
    s'.gateOf? key = some gate := by
  obtain ⟨c, hc, hsteps⟩ := step_eq_some_iff.mp hstep
  cases hsteps with
  | make hstage hnone =>
      have hne : c.key ≠ key := by
        rintro rfl
        rw [hnone] at hgate
        cases hgate
      exact (gateOf?_append_of_ne (s.nextGate + 1) hne).trans hgate
  | @remove gate result hstage _ _ =>
      have hne : key ≠ c.key := by
        rintro rfl
        exact huntested ⟨c, gate, hc, rfl, by rw [hstage]; rfl⟩
      exact (gateOf?_remove hne).trans hgate
  | _ => exact hgate

theorem ReachesUntested.gateOf? (hreaches : ReachesUntested key s s')
    (hgate : s.gateOf? key = some gate) : s'.gateOf? key = some gate := by
  induction hreaches with
  | refl => exact hgate
  | tail _ hstep ih =>
      obtain ⟨index, huntested, hstep⟩ := hstep
      exact gateOf?_of_untested ih huntested hstep

/-- Each key has one gate at most.  When nobody shares a gate of the key any more,
there is still one if and only if the last test of it was crowded. -/
theorem left_behind_iff (hinitial : Initial s₀) (hreaches : s₀.Reaches s) (hidle : s.Idle key) :
    (s.pending.map Prod.fst).Nodup ∧
      ((∃ gate, s.gateOf? key = some gate) ↔ s₀.LastTestCrowded key s) := by
  refine ⟨nodup_of_reaches hinitial hreaches, ?_⟩
  constructor
  · intro hleft
    obtain ⟨gate, hgate⟩ := hleft
    rcases attended_or_crowded hinitial hreaches key with hattended | hcrowded
    · exact absurd hidle (hattended.not_idle hgate)
    · exact hcrowded
  · intro hcrowded
    obtain ⟨t, t', index, ht, hcrowded, hstep, hrest⟩ := hcrowded
    have hs : GatesShared t := hinitial.gatesShared.reaches ht
    obtain ⟨gate, hgate⟩ := gateOf?_of_crowded hs hcrowded hstep
    exact ⟨gate, ReachesUntested.gateOf? hrest hgate⟩

/-! ## Two callers that count each other -/

/-- Two callers of one key. -/
def paired : State Nat Nat String where
  resolved := .empty
  pending := []
  nextGate := 0
  callers := [⟨7, .ok 1, .arriving, 0⟩, ⟨7, .ok 2, .arriving, 0⟩]

theorem exists_left_behind : paired.Initial ∧
    ∃ s, paired.Reaches s ∧ s.Idle 7 ∧ s.gateOf? 7 = some 0 := by
  have hinitial : paired.Initial := by
    constructor <;> simp [paired]
  -- Both test the gate before either of them gives up its share.
  have hsteps : ∃ s,
      [0, 1, 0, 1, 0, 0, 0, 0, 1, 1, 1, 0, 1, 0, 1].foldlM State.step paired = some s ∧
      s.callers.map (·.stage.gate?) = [none, none] ∧ s.gateOf? 7 = some 0 :=
    ⟨_, rfl, rfl, rfl⟩
  obtain ⟨s, hfold, hgates, hleft⟩ := hsteps
  refine ⟨hinitial, s, reaches_of_foldlM hfold, ?_, hleft⟩
  intro c hc _
  have hmem := List.mem_map_of_mem (f := (·.stage.gate?)) hc
  rw [hgates] at hmem
  simpa using hmem

theorem left_behind_paired : ∃ s, (paired.Initial ∧ paired.Reaches s ∧ s.Idle 7) ∧
    s.gateOf? 7 = some 0 ∧ paired.LastTestCrowded 7 s := by
  obtain ⟨hinitial, s, hreaches, hidle, hleft⟩ := exists_left_behind
  have hcrowded := (left_behind_iff hinitial hreaches hidle).2.mp ⟨0, hleft⟩
  exact ⟨s, ⟨hinitial, hreaches, hidle⟩, hleft, hcrowded⟩

/-- So a gate can stay although nobody shares it. -/
theorem not_always_removed :
    ¬∀ (s₀ s : State Nat Nat String) (key : Nat), s₀.Initial → s₀.Reaches s → s.Idle key →
      s.gateOf? key = none := by
  intro hlaw
  obtain ⟨hinitial, s, hreaches, hidle, hleft⟩ := exists_left_behind
  rw [hlaw paired s 7 hinitial hreaches hidle] at hleft
  cases hleft

end State

end Forwarding.Gate
