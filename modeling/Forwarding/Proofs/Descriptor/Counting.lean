import Forwarding.Descriptor.ParameterCount
import Forwarding.Proofs.Descriptor.RoundTrip

/-!
# Counting follows reading

The counting scanner passes through images of the states of the full one, up
to the closing parenthesis, where it stops with the number of parameters read
so far.  So a descriptor that can be read has as many parameters as counted.
Names are not checked, and nothing behind the parenthesis is; what is counted
are the items in front of it.
-/

namespace Forwarding.Descriptor

open Scanner

theorem CountState.eq_complete {state : CountState} {count : Nat}
    (hresult : countScanner.result? state = some count) : state = .complete count := by
  cases state with
  | complete held => exact congrArg CountState.complete (Option.some.inj hresult)
  | _ => cases hresult

namespace MethodState

/-- What the counting scanner knows of a state. -/
def counted : MethodState → CountState
  | .opening => .opening
  | .parameter backwards (.brackets count) => .parameter backwards.length count
  | .parameter backwards (.className _ name) =>
      .className backwards.length name.isEmpty
  | .parameter backwards (.complete _) => .parameter (backwards.length + 1) 0
  | .result backwards _ => .complete backwards.length
  | .complete descriptor => .complete descriptor.parameters.length

theorem counted_stepBrackets {backwards : List FieldType} {count : Nat} {c : Char}
    {next : TypeState} (hopen : c ≠ ')')
    (hstep : TypeState.stepBrackets count c = .ok next) :
    CountState.stepParameter backwards.length count c =
      .ok (ofParameter backwards next).counted := by
  unfold CountState.stepParameter
  rw [if_neg hopen]
  unfold TypeState.stepBrackets at hstep
  split at hstep
  next hbracket =>
    split at hstep
    next hlt => cases hstep; rw [if_pos hbracket, if_pos hlt]; rfl
    next => cases hstep
  next hbracket =>
    rw [if_neg hbracket]
    split at hstep
    next hclass => cases hstep; rw [if_pos hclass]; rfl
    next hclass =>
      rw [if_neg hclass]
      split at hstep
      next => cases hstep
      next =>
        split at hstep
        next base hbase => cases hstep; rw [hbase]; rfl
        next => cases hstep

theorem counted_stepClassName {backwards : List FieldType} {dimensions : Nat}
    {name : List Char} {c : Char} {next : TypeState}
    (hstep : TypeState.stepClassName dimensions name c = .ok next) :
    CountState.stepClassName backwards.length name.isEmpty c =
      .ok (ofParameter backwards next).counted := by
  unfold CountState.stepClassName
  unfold TypeState.stepClassName at hstep
  split at hstep
  next hend =>
    rw [if_pos hend]
    split at hstep
    next => cases hstep
    next hname =>
      split at hstep
      next => cases hstep
      next => cases hstep; rw [if_neg hname]; rfl
  next hend =>
    rw [if_neg hend]
    split at hstep
    next =>
      split at hstep
      next => cases hstep
      next => cases hstep; rfl
    next =>
      split at hstep
      next => cases hstep
      next => cases hstep; rfl

/-- Each step of the full scanner is one of the counting scanner, which stays
where it is once it has its result. -/
theorem counted_step {state next : MethodState} {c : Char} (hfits : state.Fits)
    (hwaits : methodScanner.result? state = none)
    (hstep : methodScanner.step state c = .ok next) :
    countScanner.step state.counted c = .ok next.counted := by
  cases state with
  | opening =>
      change (if c = '(' then _ else _) = _ at hstep
      change (if c = '(' then _ else _) = _
      split at hstep
      next hopen => cases hstep; rw [if_pos hopen]; rfl
      next => cases hstep
  | complete descriptor => cases hwaits
  | result backwards type =>
      change stepResult backwards type c = _ at hstep
      rw [stepResult_eq] at hstep
      split at hstep
      next =>
        cases hstep
        change Except.ok (CountState.complete backwards.length) = _
        simp [counted]
      next =>
        cases htype : type.step c with
        | error fault => rw [htype] at hstep; cases hstep
        | ok nextType =>
            rw [htype] at hstep
            cases hstep
            cases nextType with
            | complete t =>
                change Except.ok (CountState.complete backwards.length) = _
                simp [ofResult, counted]
            | _ => rfl
  | parameter backwards type =>
      change stepParameter backwards type c = _ at hstep
      rw [stepParameter_eq] at hstep
      split at hstep
      next hclose =>
        obtain ⟨rfl, rfl⟩ := hclose
        cases hstep
        rfl
      next hopen =>
        cases htype : type.step c with
        | error fault => rw [htype] at hstep; cases hstep
        | ok nextType =>
            rw [htype] at hstep
            cases hstep
            cases type with
            | complete t => cases hfits.2.2
            | className dimensions name => exact counted_stepClassName htype
            | brackets count =>
                refine counted_stepBrackets ?_ htype
                rintro rfl
                cases htype

/-- The counting scanner reads what the full one reads, or as much of it as it needs to
have its result. -/
theorem reads_counted {first last : MethodState} {taken : List Char}
    (hreads : methodScanner.Reads first taken last) (hfits : first.Fits) :
    ∃ front, front <+: taken ∧ countScanner.Reads first.counted front last.counted ∧
      (front = taken ∨ ∃ count, last.counted = .complete count) := by
  induction hreads with
  | nil state => exact ⟨[], by simp, .nil _, .inl rfl⟩
  | @cons state next last c rest hwaits hstep _ ih =>
      have hcount := counted_step hfits hwaits hstep
      obtain ⟨front, hfront, hrest, hends⟩ := ih (hfits.step hwaits hstep).1
      cases hresult : countScanner.result? state.counted with
      | none =>
          refine ⟨c :: front, by simpa using hfront, .cons hresult hcount hrest, ?_⟩
          simpa using hends
      | some count =>
          have hcomplete := CountState.eq_complete hresult
          have hkept : next.counted = .complete count := by
            rw [hcomplete] at hcount
            exact (Except.ok.inj hcount).symm
          have hlast : last.counted = .complete count := by
            rw [hkept] at hrest
            exact hrest.eq_of_result rfl
          exact ⟨[], by simp, by rw [hcomplete, hlast]; exact .nil _, .inr ⟨count, hlast⟩⟩

end MethodState

theorem parameterCount_eq_ok_iff {text : String} {count : Nat} :
    parameterCount text = .ok count ↔ ∃ taken, taken <+: text.toList ∧
      countScanner.Reads .opening taken (.complete count) := by
  constructor
  · intro hcounted
    cases hrun : countScanner.run .opening 0 text.toList with
    | mk outcome stop =>
        rw [parameterCount, hrun] at hcounted
        cases outcome with
        | error fault => cases hcounted
        | ok held =>
            obtain rfl : held = count := by simpa [located] using hcounted
            obtain ⟨taken, last, htext, hreads, hresult, -⟩ := run_eq_ok_iff.mp hrun
            have hlast : last = .complete held := CountState.eq_complete hresult
            exact ⟨taken, ⟨stop.rest, htext.symm⟩, hlast ▸ hreads⟩
  · intro hcounted
    obtain ⟨taken, ⟨rest, htext⟩, hreads⟩ := hcounted
    rw [parameterCount, ← htext, hreads.run_append, run_of_result rfl]
    rfl

theorem stops_of_parameterCount {text : String} {failure : Failure}
    (hcounted : parameterCount text = .error failure) :
    ∃ taken last, countScanner.Stops .opening text.toList taken last ∧
      failure.position = width taken := by
  cases hrun : countScanner.run .opening 0 text.toList with
  | mk outcome stop =>
      rw [parameterCount, hrun] at hcounted
      cases outcome with
      | ok held => cases hcounted
      | error fault =>
          cases hcounted
          simpa using stops_of_run hrun

/-- Whatever can be read has as many parameters as are counted. -/
theorem parameterCount_of_parseMethod {text : String} {m : MethodDescriptor}
    (hparse : parseMethod text = .ok m) :
    parameterCount text = .ok m.parameters.length := by
  rw [parseMethod, Input.readMethod, located_runToEnd_eq_ok_iff] at hparse
  obtain ⟨last, hreads, hresult⟩ := hparse
  cases last with
  | complete descriptor =>
      cases hresult
      obtain ⟨front, hfront, hcount, -⟩ := MethodState.reads_counted hreads trivial
      exact parameterCount_eq_ok_iff.mpr ⟨front, hfront, hcount⟩
  | _ => cases hresult

/-- What cannot be counted cannot be read, and reading stops there at the latest. -/
theorem error_of_parameterCount {text : String} {failure : Failure}
    (hcounted : parameterCount text = .error failure) :
    ∃ earlier, parseMethod text = .error earlier ∧ earlier.position ≤ failure.position := by
  cases hparse : parseMethod text with
  | ok m =>
      rw [parameterCount_of_parseMethod hparse] at hcounted
      cases hcounted
  | error earlier =>
      refine ⟨earlier, rfl, ?_⟩
      obtain ⟨counted, _, hcountStops, hposition⟩ := stops_of_parameterCount hcounted
      obtain ⟨taken, _, hstops, hearlier⟩ := stops_of_located_runToEnd hparse
      obtain ⟨front, hfront, hcount, hends⟩ := MethodState.reads_counted hstops.reads trivial
      have hbegins : front <+: text.toList := hfront.trans hstops.begins
      rcases hends with rfl | ⟨count, hcomplete⟩
      · -- The counting scanner takes all of this, so it cannot have stopped before.
        rw [← List.append_nil front] at hcount
        have hle := width_le_of_begins (hcountStops.prefix_of_reads hbegins hcount)
        rw [hposition, hearlier, Input.ofString, Nat.zero_add]
        exact hle
      · rw [hcomplete] at hcount
        rw [parameterCount_eq_ok_iff.mpr ⟨front, hbegins, hcount⟩] at hcounted
        cases hcounted

/-! ## What is counted -/

/-- What counts as a parameter: a base type or a class of any name without a semicolon,
under at most 255 dimensions. -/
inductive IsCounted : List Char → Prop
  | base {dimensions : Nat} (type : BaseType) (hdimensions : dimensions ≤ maxDimensions) :
      IsCounted (List.replicate dimensions '[' ++ [type.code])
  | object {dimensions : Nat} {name : List Char} (hdimensions : dimensions ≤ maxDimensions)
      (hne : name ≠ []) (hname : ∀ c ∈ name, c ≠ ';') :
      IsCounted (List.replicate dimensions '[' ++ 'L' :: name ++ [';'])

namespace CountState

/-- Which characters lead to a state. -/
inductive Spelled : CountState → List Char → Prop
  | opening : Spelled .opening []
  | parameter {items : List (List Char)} {brackets : Nat}
      (hitems : ∀ item ∈ items, IsCounted item) (hbrackets : brackets ≤ maxDimensions) :
      Spelled (.parameter items.length brackets)
        ('(' :: items.flatten ++ List.replicate brackets '[')
  | className {items : List (List Char)} {brackets : Nat} {name : List Char}
      (hitems : ∀ item ∈ items, IsCounted item) (hbrackets : brackets ≤ maxDimensions)
      (hname : ∀ c ∈ name, c ≠ ';') :
      Spelled (.className items.length name.isEmpty)
        ('(' :: items.flatten ++ (List.replicate brackets '[' ++ 'L' :: name))
  | complete {items : List (List Char)} (hitems : ∀ item ∈ items, IsCounted item) :
      Spelled (.complete items.length) ('(' :: items.flatten ++ [')'])

theorem Spelled.next {items : List (List Char)} {item : List Char}
    (hitems : ∀ item ∈ items, IsCounted item) (hitem : IsCounted item) :
    Spelled (.parameter (items.length + 1) 0) ('(' :: items.flatten ++ item) := by
  have hall : ∀ other ∈ items ++ [item], IsCounted other :=
    List.forall_mem_append.mpr ⟨hitems, by simpa using hitem⟩
  have hspelled := Spelled.parameter hall (Nat.zero_le maxDimensions)
  simpa using hspelled

theorem Spelled.stepParameter {items : List (List Char)} {brackets : Nat} {c : Char}
    {next : CountState} (hitems : ∀ item ∈ items, IsCounted item)
    (hbrackets : brackets ≤ maxDimensions)
    (hstep : stepParameter items.length brackets c = .ok next) :
    next.Spelled ('(' :: items.flatten ++ List.replicate brackets '[' ++ [c]) := by
  unfold CountState.stepParameter at hstep
  split at hstep
  next hclose =>
    split at hstep
    next hnone =>
      cases hstep
      subst hclose hnone
      simpa using Spelled.complete hitems
    next => cases hstep
  next =>
    split at hstep
    next hbracket =>
      split at hstep
      next hlt =>
        cases hstep
        subst hbracket
        have hspelled := Spelled.parameter hitems (Nat.succ_le_of_lt hlt)
        simpa [List.replicate_succ'] using hspelled
      next => cases hstep
    next =>
      split at hstep
      next hclass =>
        cases hstep
        subst hclass
        have hnothing : ∀ c ∈ ([] : List Char), c ≠ ';' := by simp
        simpa using Spelled.className hitems hbrackets hnothing
      next =>
        split at hstep
        next hbase =>
          cases hstep
          obtain ⟨type, htype⟩ := Option.isSome_iff_exists.mp hbase
          have hcode := BaseType.code_of_ofCode? htype
          have hitem := IsCounted.base type hbrackets
          rw [hcode] at hitem
          simpa using Spelled.next hitems hitem
        next => cases hstep

theorem Spelled.stepClassName {items : List (List Char)} {brackets : Nat} {name : List Char}
    {c : Char} {next : CountState} (hitems : ∀ item ∈ items, IsCounted item)
    (hbrackets : brackets ≤ maxDimensions) (hname : ∀ c ∈ name, c ≠ ';')
    (hstep : stepClassName items.length name.isEmpty c = .ok next) :
    next.Spelled ('(' :: items.flatten ++ (List.replicate brackets '[' ++ 'L' :: name) ++ [c]) := by
  unfold CountState.stepClassName at hstep
  split at hstep
  next hend =>
    split at hstep
    next => cases hstep
    next hne =>
      cases hstep
      subst hend
      have hitem := IsCounted.object hbrackets (by simpa using hne) hname
      simpa using Spelled.next hitems hitem
  next hother =>
    cases hstep
    have hlonger : ∀ d ∈ name ++ [c], d ≠ ';' :=
      List.forall_mem_append.mpr ⟨hname, by simpa using hother⟩
    have hspelled := Spelled.className hitems hbrackets hlonger
    have hempty : (name ++ [c]).isEmpty = false := by simp
    rw [hempty] at hspelled
    simpa using hspelled

theorem Spelled.step {state next : CountState} {taken : List Char} {c : Char}
    (hspelled : state.Spelled taken) (hwaits : countScanner.result? state = none)
    (hstep : countScanner.step state c = .ok next) : next.Spelled (taken ++ [c]) := by
  cases hspelled with
  | opening =>
      change (if c = '(' then _ else _) = _ at hstep
      split at hstep
      next hopen =>
        cases hstep
        subst hopen
        have hnone : ∀ item ∈ ([] : List (List Char)), IsCounted item := by simp
        exact Spelled.parameter hnone (Nat.zero_le maxDimensions)
      next => cases hstep
  | parameter hitems hbrackets => exact Spelled.stepParameter hitems hbrackets hstep
  | className hitems hbrackets hname =>
      exact Spelled.stepClassName hitems hbrackets hname hstep
  | complete hitems => cases hwaits

theorem Spelled.reads {state last : CountState} {before taken : List Char}
    (hspelled : state.Spelled before) (hreads : countScanner.Reads state taken last) :
    last.Spelled (before ++ taken) := by
  induction hreads generalizing before with
  | nil state => simpa using hspelled
  | cons hwaits hstep _ ih => simpa using ih (hspelled.step hwaits hstep)

/-! ### Reading what is counted -/

theorem reads_brackets (count brackets dimensions : Nat)
    (hdimensions : brackets + dimensions ≤ maxDimensions) :
    countScanner.Reads (.parameter count brackets) (List.replicate dimensions '[')
      (.parameter count (brackets + dimensions)) := by
  have hstep : ∀ n < maxDimensions,
      countScanner.step (.parameter count n) '[' = .ok (.parameter count (n + 1)) := by
    intro n hlt
    simp [countScanner, CountState.step, CountState.stepParameter, hlt]
  exact reads_replicate (CountState.parameter count) (fun _ => rfl) hstep brackets dimensions
    hdimensions

theorem reads_name (count : Nat) (empty : Bool) {name : List Char}
    (hname : ∀ c ∈ name, c ≠ ';') :
    countScanner.Reads (.className count empty) name
      (.className count (empty && name.isEmpty)) := by
  induction name generalizing empty with
  | nil => simpa using Reads.nil (CountState.className count empty)
  | cons c rest ih =>
      have hstep : countScanner.step (.className count empty) c =
          .ok (.className count false) := by
        simp [countScanner, CountState.step, CountState.stepClassName, hname c]
      have hrest := ih false fun other hother => hname other (List.mem_cons_of_mem c hother)
      simpa using Reads.cons rfl hstep hrest

theorem reads_item (count : Nat) {item : List Char} (hitem : IsCounted item) :
    countScanner.Reads (.parameter count 0) item (.parameter (count + 1) 0) := by
  cases hitem with
  | @base dimensions type hdimensions =>
      have hbrackets := reads_brackets count 0 dimensions (by simpa using hdimensions)
      have hcode : countScanner.step (.parameter count (0 + dimensions)) type.code =
          .ok (.parameter (count + 1) 0) := by
        cases type <;> rfl
      exact hbrackets.append (.single rfl hcode)
  | @object dimensions name hdimensions hne hname =>
      have hbrackets := reads_brackets count 0 dimensions (by simpa using hdimensions)
      have hclass : countScanner.step (.parameter count (0 + dimensions)) 'L' =
          .ok (.className count true) := rfl
      have hempty : (true && name.isEmpty) = false := by simpa using hne
      have hread := reads_name count true hname
      rw [hempty] at hread
      have hend : countScanner.step (.className count false) ';' =
          .ok (.parameter (count + 1) 0) := rfl
      have hobject := Reads.cons rfl hclass (hread.append (.single rfl hend))
      simpa using hbrackets.append hobject

theorem reads_items (count : Nat) {items : List (List Char)}
    (hitems : ∀ item ∈ items, IsCounted item) :
    countScanner.Reads (.parameter count 0) items.flatten
      (.parameter (count + items.length) 0) := by
  induction items generalizing count with
  | nil => exact .nil _
  | cons item rest ih =>
      have hfirst := reads_item count (hitems item List.mem_cons_self)
      have hrest := ih (count + 1) fun other hother =>
        hitems other (List.mem_cons_of_mem item hother)
      have hlength : count + (item :: rest).length = count + 1 + rest.length := by
        simp only [List.length_cons]
        omega
      rw [List.flatten_cons, hlength]
      exact hfirst.append hrest

end CountState

/-- Items between parentheses are counted, whatever follows them. -/
theorem parameterCount_eq_ok_iff_items {text : String} {count : Nat} :
    parameterCount text = .ok count ↔ ∃ (items : List (List Char)) (rest : List Char),
      items.length = count ∧ (∀ item ∈ items, IsCounted item) ∧
      text.toList = '(' :: items.flatten ++ ')' :: rest := by
  rw [parameterCount_eq_ok_iff]
  constructor
  · intro hcounted
    obtain ⟨taken, ⟨rest, htext⟩, hreads⟩ := hcounted
    have hspelled := CountState.Spelled.opening.reads hreads
    rw [List.nil_append] at hspelled
    cases hspelled with
    | @complete items hitems => exact ⟨items, rest, rfl, hitems, by simp [← htext]⟩
  · intro hcounted
    obtain ⟨items, rest, rfl, hitems, htext⟩ := hcounted
    refine ⟨'(' :: items.flatten ++ [')'], ⟨rest, by simp [htext]⟩, ?_⟩
    have hopen : countScanner.step .opening '(' = .ok (.parameter 0 0) := rfl
    have hread := CountState.reads_items 0 hitems
    rw [Nat.zero_add] at hread
    have hclose : countScanner.step (.parameter items.length 0) ')' =
        .ok (.complete items.length) := rfl
    exact .cons rfl hopen (hread.append (.single rfl hclose))

/-- Counting follows reading: it gives the number of parameters of all that can be read,
and fails only where reading has failed already. -/
theorem counting_agrees :
    (∀ (text : String) (m : MethodDescriptor),
      parseMethod text = .ok m → parameterCount text = .ok m.parameters.length) ∧
    (∀ (text : String) (failure : Failure), parameterCount text = .error failure →
      ∃ earlier, parseMethod text = .error earlier ∧ earlier.position ≤ failure.position) ∧
    ∀ (text : String) (count : Nat), parameterCount text = .ok count ↔
      ∃ (items : List (List Char)) (rest : List Char), items.length = count ∧
        (∀ item ∈ items, IsCounted item) ∧ text.toList = '(' :: items.flatten ++ ')' :: rest := by
  refine ⟨?_, ?_, ?_⟩
  · intro text m
    exact parameterCount_of_parseMethod
  · intro text failure
    exact error_of_parameterCount
  · intro text count
    exact parameterCount_eq_ok_iff_items

theorem counting_agrees_lenient :
    (parseMethod "([ILa/b;)V" =
        .ok ⟨[⟨1, .base .int⟩, ⟨0, .object "a.b"⟩], none⟩ ∧
      parameterCount "([ILa/b;)V" = .ok 2) ∧
    parameterCount "(L.;[)V" = .error ⟨5, .bareDimensions⟩ ∧
    ∃ earlier, parseMethod "(L.;[)V" = .error earlier ∧ earlier.position ≤ 5 := by
  have hparse : parseMethod "([ILa/b;)V" =
      .ok ⟨[⟨1, .base .int⟩, ⟨0, .object "a.b"⟩], none⟩ := rfl
  have hcount : parameterCount "(L.;[)V" = .error ⟨5, .bareDimensions⟩ := rfl
  exact ⟨⟨hparse, counting_agrees.1 _ _ hparse⟩, hcount, counting_agrees.2.1 _ _ hcount⟩

end Forwarding.Descriptor
