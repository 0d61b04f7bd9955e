import Forwarding.Descriptor.Scanner
import Mathlib.Algebra.GroupWithZero.Nat

/-!
# What a scanner reads

A scanner that ends with a result has taken a first part of its input, one
character at a time, and no character from a state that held a result already.
The relation below is that run without positions, so that facts about single
steps lift to whole descriptors.
-/

namespace Forwarding.Descriptor.Scanner

variable {σ α τ β : Type} {scanner : Scanner σ α}

/-- The scanner takes the characters and gets from the first state to the
second. -/
inductive Reads (scanner : Scanner σ α) : σ → List Char → σ → Prop
  | nil (state : σ) : Reads scanner state [] state
  | cons {state next last : σ} {c : Char} {rest : List Char}
      (hwaits : scanner.result? state = none)
      (hstep : scanner.step state c = .ok next)
      (hrest : Reads scanner next rest last) :
      Reads scanner state (c :: rest) last

theorem Reads.single {state next : σ} {c : Char}
    (hwaits : scanner.result? state = none)
    (hstep : scanner.step state c = .ok next) :
    scanner.Reads state [c] next :=
  .cons hwaits hstep (.nil next)

theorem Reads.append {first middle last : σ} {front back : List Char}
    (hfront : scanner.Reads first front middle)
    (hback : scanner.Reads middle back last) :
    scanner.Reads first (front ++ back) last := by
  induction hfront with
  | nil state => exact hback
  | cons hwaits hstep _ ih => exact .cons hwaits hstep (ih hback)

theorem Reads.eq_of_result {first last : σ} {taken : List Char} {value : α}
    (hreads : scanner.Reads first taken last)
    (hresult : scanner.result? first = some value) : last = first := by
  cases hreads with
  | nil => rfl
  | cons hwaits _ _ =>
      rw [hwaits] at hresult
      cases hresult

/-- One character over and over leads up a row of states. -/
theorem reads_replicate (state : Nat → σ) {c : Char} {limit : Nat}
    (hwaits : ∀ n, scanner.result? (state n) = none)
    (hstep : ∀ n < limit, scanner.step (state n) c = .ok (state (n + 1)))
    (first count : Nat) (hlimit : first + count ≤ limit) :
    scanner.Reads (state first) (List.replicate count c) (state (first + count)) := by
  induction count generalizing first with
  | zero => exact .nil _
  | succ count ih =>
      have hnext : first + (count + 1) = first + 1 + count := by omega
      rw [List.replicate_succ, hnext]
      exact .cons (hwaits first) (hstep first (by omega)) (ih (first + 1) (by omega))

/-- If every step keeps an invariant and adds its character to what the state
has written down, then a reading adds all its characters. -/
theorem Reads.written_eq {Good : σ → Prop} {written : σ → List Char}
    (hkeeps : ∀ {state next c}, Good state → scanner.result? state = none →
      scanner.step state c = .ok next →
      Good next ∧ written next = written state ++ [c])
    {first last : σ} {taken : List Char}
    (hreads : scanner.Reads first taken last) (hgood : Good first) :
    Good last ∧ written last = written first ++ taken := by
  induction hreads with
  | nil state => exact ⟨hgood, (List.append_nil _).symm⟩
  | cons hwaits hstep _ ih =>
      obtain ⟨hnext, hwritten⟩ := hkeeps hgood hwaits hstep
      obtain ⟨hlast, hrest⟩ := ih hnext
      exact ⟨hlast, by rw [hrest, hwritten, List.append_assoc, List.singleton_append]⟩

theorem Reads.map {other : Scanner τ β} {image : σ → τ}
    (hwait : ∀ {state}, scanner.result? state = none →
      other.result? (image state) = none)
    (hfollow : ∀ {state next c}, scanner.result? state = none →
      scanner.step state c = .ok next →
      other.step (image state) c = .ok (image next))
    {first last : σ} {taken : List Char}
    (hreads : scanner.Reads first taken last) :
    other.Reads (image first) taken (image last) := by
  induction hreads with
  | nil state => exact .nil _
  | cons hwaits hstep _ ih => exact .cons (hwait hwaits) (hfollow hwaits hstep) ih

def width (chars : List Char) : Nat :=
  (chars.map Char.utf8Size).sum

@[simp] theorem width_nil : width [] = 0 := rfl

@[simp] theorem width_cons (c : Char) (rest : List Char) :
    width (c :: rest) = c.utf8Size + width rest := by
  simp [width]

theorem width_le_of_begins {front chars : List Char} (hbegins : front <+: chars) :
    width front ≤ width chars := by
  obtain ⟨rest, rfl⟩ := hbegins
  simp [width]

theorem Reads.run_append {first last : σ} {taken : List Char}
    (hreads : scanner.Reads first taken last) (position : Nat)
    (rest : List Char) :
    scanner.run first position (taken ++ rest) =
      scanner.run last (position + width taken) rest := by
  induction hreads generalizing position with
  | nil state => simp
  | cons hwaits hstep _ ih =>
      simp only [List.cons_append, run, hwaits, hstep, width_cons]
      rw [ih, Nat.add_assoc]

theorem run_of_result {state : σ} {value : α}
    (hresult : scanner.result? state = some value) (position : Nat)
    (rest : List Char) :
    scanner.run state position rest = (.ok value, ⟨position, rest⟩) := by
  cases rest <;> simp [run, hresult]

/-- A run gives a result when it reads as far as a state that holds one, and
it stops there. -/
theorem run_eq_ok_iff {state : σ} {position : Nat} {input : List Char}
    {value : α} {stop : Input} :
    scanner.run state position input = (.ok value, stop) ↔
      ∃ taken last, input = taken ++ stop.rest ∧
        scanner.Reads state taken last ∧ scanner.result? last = some value ∧
        stop.position = position + width taken := by
  constructor
  · intro hrun
    induction input generalizing state position with
    | nil =>
        cases hresult : scanner.result? state with
        | none => simp [run, hresult] at hrun
        | some held =>
            obtain ⟨rfl, rfl⟩ : held = value ∧ _ = stop := by
              simpa [run, hresult] using hrun
            exact ⟨[], state, rfl, .nil state, hresult, rfl⟩
    | cons c rest ih =>
        cases hresult : scanner.result? state with
        | some held =>
            obtain ⟨rfl, rfl⟩ : held = value ∧ _ = stop := by
              simpa [run, hresult] using hrun
            exact ⟨[], state, rfl, .nil state, hresult, rfl⟩
        | none =>
            cases hstep : scanner.step state c with
            | error fault => simp [run, hresult, hstep] at hrun
            | ok next =>
                simp only [run, hresult, hstep] at hrun
                obtain ⟨taken, last, rfl, hreads, hlast, hposition⟩ := ih hrun
                refine ⟨c :: taken, last, rfl, .cons hresult hstep hreads,
                  hlast, ?_⟩
                rw [hposition, width_cons, Nat.add_assoc]
  · rintro ⟨taken, last, rfl, hreads, hresult, hposition⟩
    rw [hreads.run_append, run_of_result hresult, ← hposition]

theorem located_runToEnd_eq_ok_iff {start : σ} {input : Input} {value : α} :
    located (scanner.runToEnd start input) = .ok value ↔
      ∃ last, scanner.Reads start input.rest last ∧
        scanner.result? last = some value := by
  constructor
  · intro hlocated
    cases hrun : scanner.run start input.position input.rest with
    | mk outcome stop =>
        obtain ⟨position, rest⟩ := stop
        cases outcome with
        | error fault => simp [runToEnd, hrun, located] at hlocated
        | ok held =>
            cases rest with
            | cons c rest => simp [runToEnd, hrun, located] at hlocated
            | nil =>
                obtain rfl : held = value := by
                  simpa [runToEnd, hrun, located] using hlocated
                obtain ⟨taken, last, htaken, hreads, hresult, -⟩ :=
                  run_eq_ok_iff.mp hrun
                rw [htaken, List.append_nil]
                exact ⟨last, hreads, hresult⟩
  · rintro ⟨last, hreads, hresult⟩
    have hrun := hreads.run_append input.position []
    rw [List.append_nil, run_of_result hresult] at hrun
    simp [runToEnd, hrun, located]

/-! ## Where a scanner stops -/

/-- A scanner that fails has taken a part of its input from which the next character
does not lead on: it is refused or follows a result. -/
structure Stops (scanner : Scanner σ α) (start : σ) (input taken : List Char) (last : σ) :
    Prop where
  begins : taken <+: input
  reads : scanner.Reads start taken last
  refused : ∀ c, taken ++ [c] <+: input → scanner.result? last = none →
    ∀ next, scanner.step last c ≠ .ok next

theorem Reads.of_append {first last final : σ} {taken rest : List Char}
    (hreads : scanner.Reads first taken last)
    (hwhole : scanner.Reads first (taken ++ rest) final) : scanner.Reads last rest final := by
  induction hreads with
  | nil state => exact hwhole
  | cons hwaits hstep _ ih =>
      cases hwhole with
      | cons _ hstep' hrest =>
          rw [hstep, Except.ok.injEq] at hstep'
          exact ih (hstep' ▸ hrest)

/-- What a scanner can take from an input ends where the scanner stops. -/
theorem Stops.prefix_of_reads {start last final : σ} {input taken longer rest : List Char}
    (hstops : scanner.Stops start input taken last) (hlonger : longer <+: input)
    (hreads : scanner.Reads start (longer ++ rest) final) : longer <+: taken := by
  rcases List.prefix_or_prefix_of_prefix hlonger hstops.begins with hbefore | hbehind
  · exact hbefore
  · obtain ⟨more, rfl⟩ := hbehind
    cases more with
    | nil => simp
    | cons c more =>
        rw [List.append_assoc] at hreads
        have hnext : taken ++ [c] <+: taken ++ c :: more := by simp
        cases hstops.reads.of_append hreads with
        | cons hwaits hstep _ =>
            exact absurd hstep (hstops.refused c (hnext.trans hlonger) hwaits _)

theorem stops_of_run {state : σ} {position : Nat} {input : List Char} {fault : Fault}
    {stop : Input} (hrun : scanner.run state position input = (.error fault, stop)) :
    ∃ taken last, scanner.Stops state input taken last ∧
      stop.position = position + width taken := by
  induction input generalizing state position with
  | nil =>
      cases hresult : scanner.result? state with
      | some value => simp [run, hresult] at hrun
      | none =>
          simp only [run, hresult, Prod.mk.injEq] at hrun
          refine ⟨[], state, ⟨List.prefix_rfl, .nil state, ?_⟩, ?_⟩
          · simp
          · simp [← hrun.2]
  | cons c rest ih =>
      cases hresult : scanner.result? state with
      | some value => simp [run, hresult] at hrun
      | none =>
          cases hstep : scanner.step state c with
          | error fault =>
              simp only [run, hresult, hstep, Prod.mk.injEq] at hrun
              refine ⟨[], state, ⟨by simp, .nil state, ?_⟩, ?_⟩
              · intro d hd _ next
                obtain rfl : d = c := by simpa using hd
                simp [hstep]
              · simp [← hrun.2]
          | ok next =>
              simp only [run, hresult, hstep] at hrun
              obtain ⟨taken, last, hstops, hposition⟩ := ih hrun
              refine ⟨c :: taken, last, ⟨?_, ?_, ?_⟩, ?_⟩
              · simpa using hstops.begins
              · exact .cons hresult hstep hstops.reads
              · simpa using hstops.refused
              · rw [hposition, width_cons, Nat.add_assoc]

theorem stops_of_located_runToEnd {start : σ} {input : Input} {failure : Failure}
    (hlocated : located (scanner.runToEnd start input) = .error failure) :
    ∃ taken last, scanner.Stops start input.rest taken last ∧
      failure.position = input.position + width taken := by
  cases hrun : scanner.run start input.position input.rest with
  | mk outcome stop =>
      cases outcome with
      | error fault =>
          simp only [runToEnd, hrun, located, Except.error.injEq] at hlocated
          simpa [← hlocated] using stops_of_run hrun
      | ok value =>
          obtain ⟨taken, last, hinput, hreads, hresult, hposition⟩ := run_eq_ok_iff.mp hrun
          obtain ⟨position, rest⟩ := stop
          cases rest with
          | nil => simp [runToEnd, hrun, located] at hlocated
          | cons c rest =>
              simp only [runToEnd, hrun, located, Except.error.injEq] at hlocated
              refine ⟨taken, last, ⟨?_, hreads, ?_⟩, ?_⟩
              · exact ⟨_, hinput.symm⟩
              · intro c _ hnone
                rw [hresult] at hnone
                cases hnone
              · rw [← hlocated]
                exact hposition

end Forwarding.Descriptor.Scanner
