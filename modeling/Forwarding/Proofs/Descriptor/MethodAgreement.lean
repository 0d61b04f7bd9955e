import Forwarding.Proofs.Descriptor.ByteAgreement

/-!
# Method descriptors in bytes and in characters

A parser of bytes that reads one thing and then another follows a scanner that does.  The
scanner of methods reads its types with the states of the scanner of types, so that it stops
and goes on behind every type where that one does.
-/

namespace Forwarding.Descriptor

open ByteParser

variable {α β : Type} {text : String} {position : Nat} {ch : Char} {rest : List Char}
  {c c' : Cursor} {input : Input} {backwards : List FieldType}

/-! ## Going on behind a result -/

/-- Goes on behind a result, from where its reading ended. -/
def andThen (outcome : Except Fault α × Input) (next : α → Input → Except Fault β × Input) :
    Except Fault β × Input :=
  match outcome with
  | (.ok value, stop) => next value stop
  | (.error fault, stop) => (.error fault, stop)

theorem Follows.bind {parser : ByteParser α} {f : α → ByteParser β}
    {outcome : Except Fault α × Input} {next : α → Input → Except Fault β × Input}
    (hparser : Follows text (parser c) outcome)
    (hnext : ∀ value stop c', parser c = .ok value c' → At text stop c' →
      Follows text (f value c') (next value stop)) :
    Follows text ((parser >>= f) c) (andThen outcome next) := by
  obtain ⟨found, stop⟩ := outcome
  cases found with
  | ok value =>
      obtain ⟨c', hvalue, hat⟩ := hparser
      rw [bind_of_ok hvalue]
      exact hnext value stop c' hvalue hat
  | error fault =>
      obtain ⟨c', hfault, hat⟩ := hparser
      exact ⟨c', bind_eq_error.mpr (.inl hfault), hat⟩

namespace MethodState

/-- Whether some states are those of a type inside of a method descriptor, where one character
has another meaning in front of the type. -/
structure Hosts (image : TypeState → MethodState) (other : Char) (otherwise : MethodState) :
    Prop where
  result? : ∀ {state}, typeScanner.result? state = none →
    methodScanner.result? (image state) = none
  step : ∀ {state c}, typeScanner.result? state = none →
    methodScanner.step (image state) c =
      if state = .start ∧ c = other then .ok otherwise else (state.step c).map image
  atEnd : ∀ {state}, typeScanner.result? state = none → state ≠ .start →
    methodScanner.atEnd (image state) = typeScanner.atEnd state

theorem hosts_ofParameter (backwards : List FieldType) :
    Hosts (ofParameter backwards) ')' (.result backwards .start) := by
  refine ⟨fun {state} hwaits => ?_, fun {state c} hwaits => ?_, fun {state} hwaits hstart => ?_⟩
  · cases state with
    | complete t => cases hwaits
    | _ => rfl
  · cases state with
    | complete t => cases hwaits
    | brackets count => exact stepParameter_eq backwards _ c
    | className dimensions name => exact stepParameter_eq backwards (.className dimensions name) c
  · cases state with
    | complete t => cases hwaits
    | brackets count => exact if_neg hstart
    | className dimensions name => rfl

theorem hosts_ofResult (backwards : List FieldType) :
    Hosts (ofResult backwards) 'V' (.complete ⟨backwards.reverse, none⟩) := by
  refine ⟨fun {state} hwaits => ?_, fun {state c} hwaits => ?_, fun {state} hwaits hstart => ?_⟩
  · cases state with
    | complete t => cases hwaits
    | _ => rfl
  · cases state with
    | complete t => cases hwaits
    | brackets count => exact stepResult_eq backwards _ c
    | className dimensions name => exact stepResult_eq backwards (.className dimensions name) c
  · cases state with
    | complete t => cases hwaits
    | brackets count => exact if_neg hstart
    | className dimensions name => rfl

variable {image : TypeState → MethodState} {other : Char} {otherwise : MethodState}

/-- A type is read inside of a descriptor the way it is read on its own, and what follows it is
read from the state behind it. -/
theorem Hosts.run (hhosts : Hosts image other otherwise) {state : TypeState}
    (hpending : state.Pending) (position : Nat) {chars : List Char}
    (hfirst : state = .start → ∃ c rest, chars = c :: rest ∧ c ≠ other) :
    methodScanner.run (image state) position chars =
      andThen (typeScanner.run state position chars) fun t stop =>
        methodScanner.run (image (.complete t)) stop.position stop.rest := by
  have hwaits := hpending.2
  induction chars generalizing state position with
  | nil =>
      have hstart : state ≠ .start := by
        intro hstart
        obtain ⟨_, _, ⟨⟩, _⟩ := hfirst hstart
      simp only [Scanner.run, hhosts.result? hwaits, hwaits, hhosts.atEnd hwaits hstart, andThen]
  | cons c rest ih =>
      have htype : ¬(state = .start ∧ c = other) := by
        rintro ⟨hstart, rfl⟩
        obtain ⟨_, _, ⟨⟩, hother⟩ := hfirst hstart
        exact hother rfl
      rw [Scanner.run_cons (hhosts.result? hwaits), Scanner.run_cons hwaits, hhosts.step hwaits,
        if_neg htype, show typeScanner.step state c = state.step c from rfl]
      cases hnext : state.step c with
      | error fault => rfl
      | ok next =>
          obtain ⟨hfits, hwritten⟩ := hpending.1.step hwaits hnext
          have hstart : next ≠ .start := by
            rintro rfl
            simp [TypeState.start, TypeState.written] at hwritten
          -- The scanner of types stops at a complete type, the other one goes on from its image.
          cases next with
          | complete t =>
              have hdone : ∀ place, typeScanner.run (.complete t) place rest =
                  (.ok t, ⟨place, rest⟩) := fun place => Scanner.run_of_result rfl place rest
              dsimp only [Except.map]
              rw [hdone]
              rfl
          | brackets count => exact ih ⟨hfits, rfl⟩ _ (fun h => absurd h hstart) rfl
          | className dimensions name =>
              exact ih ⟨hfits, rfl⟩ _ (fun h => absurd h hstart) rfl

theorem run_parameter (backwards : List FieldType) (position : Nat) (hother : ch ≠ ')') :
    methodScanner.run (.parameter backwards .start) position (ch :: rest) =
      andThen (typeScanner.run .start position (ch :: rest)) fun t stop =>
        methodScanner.run (.parameter (t :: backwards) .start) stop.position stop.rest :=
  (hosts_ofParameter backwards).run TypeState.start_pending position
    fun _ => ⟨ch, rest, rfl, hother⟩

theorem run_result (backwards : List FieldType) (position : Nat) (hother : ch ≠ 'V') :
    methodScanner.run (.result backwards .start) position (ch :: rest) =
      andThen (typeScanner.run .start position (ch :: rest)) fun t stop =>
        (.ok ⟨backwards.reverse, some t⟩, stop) := by
  have hrun : ∀ t (stop : Input), methodScanner.run (ofResult backwards (.complete t))
      stop.position stop.rest = (.ok ⟨backwards.reverse, some t⟩, stop) := by
    intro t stop
    exact Scanner.run_of_result rfl _ _
  simp only [← hrun]
  exact (hosts_ofResult backwards).run TypeState.start_pending position
    fun _ => ⟨ch, rest, rfl, hother⟩

end MethodState

/-! ## Methods -/

theorem follows_result (hat : At text ⟨position, rest⟩ c) :
    Follows text ((result text >>= fun found => pure ⟨backwards.reverse, found⟩) c)
      (methodScanner.run (.result backwards .start) position rest) := by
  rw [result, bind_assoc, bind_of_ok (peek_eq c)]
  cases rest with
  | nil =>
      rw [hat.peek_end]
      exact follows_refuse hat .missingResult
  | cons ch rest =>
      rw [hat.peek]
      simp only [leadByte_eq_iff 'V' (by decide)]
      by_cases hvoid : ch = 'V'
      · obtain ⟨c', hbump, hnext⟩ := hat.bump (by rw [hvoid]; decide)
        have hstep : methodScanner.step (.result backwards .start) 'V' =
            .ok (.complete ⟨backwards.reverse, none⟩) := rfl
        rw [if_pos hvoid, bind_assoc, bind_of_ok hbump, Scanner.run_cons rfl, hvoid, hstep]
        dsimp only
        rw [Scanner.run_of_result rfl, ← hvoid]
        exact ⟨c', rfl, hnext⟩
      · rw [if_neg hvoid, bind_assoc, MethodState.run_result backwards position hvoid]
        refine (follows_fieldType hat).bind fun t stop c' _ hnext => ?_
        exact ⟨c', rfl, hnext⟩

theorem parameters_of_close (hpeek : c.peek.toOption = some ')'.toUInt8)
    (hbump : bump c = .ok () c') :
    parameters text backwards c = .ok backwards.reverse c' := by
  rw [parameters, hpeek]
  dsimp only
  rw [if_pos rfl, bind_of_ok hbump]
  rfl

theorem parameters_of_type {byte : UInt8} (hpeek : c.peek.toOption = some byte)
    (hother : byte ≠ ')'.toUInt8) :
    parameters text backwards c =
      (fieldType text >>= fun t => parameters text (t :: backwards)) c := by
  rw [parameters, hpeek]
  dsimp only
  rw [if_neg hother]
  split
  next t c' htype => rw [bind_of_ok htype]
  next stop c' htype => exact (bind_eq_error.mpr (.inl htype)).symm

theorem follows_parameters (hat : At text ⟨position, rest⟩ c) :
    Follows text ((parameters text backwards >>= fun types =>
        result text >>= fun found => pure ⟨types, found⟩) c)
      (methodScanner.run (.parameter backwards .start) position rest) := by
  induction hremaining : c.remaining using Nat.strongRecOn
    generalizing backwards position rest c with
  | ind n ih =>
    cases rest with
    | nil =>
        have hend : parameters text backwards c = refuse c.position .unterminatedParameters c := by
          rw [parameters, hat.peek_end]
        rw [bind_congr_left hend]
        exact follows_refuse hat .unterminatedParameters
    | cons ch rest =>
        by_cases hclose : ch = ')'
        · obtain ⟨c', hbump, hnext⟩ := hat.bump (by rw [hclose]; decide)
          have hpeek := hat.peek
          rw [hclose] at hpeek
          have hstep : methodScanner.step (.parameter backwards .start) ')' =
              .ok (.result backwards .start) := rfl
          rw [bind_of_ok (parameters_of_close hpeek hbump), Scanner.run_cons rfl, hclose, hstep,
            ← hclose]
          exact follows_result hnext
        · have hother : TypeState.leadByte ch ≠ ')'.toUInt8 :=
            fun hbyte => hclose ((leadByte_eq_iff ')' (by decide)).mp hbyte)
          rw [bind_congr_left (parameters_of_type hat.peek hother), bind_assoc,
            MethodState.run_parameter backwards position hclose]
          refine (follows_fieldType hat).bind fun t stop c' htype hnext => ?_
          have hprogress : c'.remaining < n := by
            rw [← hremaining]
            exact advances_fieldTypeFrom text 0 htype
          exact ih _ hprogress hnext rfl

theorem follows_signature (hat : At text ⟨position, rest⟩ c) :
    Follows text (signature text c) (methodScanner.run .opening position rest) := by
  rw [signature, bind_of_ok (peek_eq c)]
  cases rest with
  | nil =>
      rw [hat.peek_end, if_neg (by simp)]
      exact follows_refuse hat .openingExpected
  | cons ch rest =>
      have hstep : methodScanner.step .opening ch =
          if ch = '(' then .ok (.parameter [] .start) else .error .openingExpected := rfl
      rw [hat.peek, Scanner.run_cons rfl, hstep]
      simp only [Option.some.injEq, leadByte_eq_iff '(' (by decide)]
      split
      next hopen =>
        obtain ⟨c', hbump, hnext⟩ := hat.bump (by rw [hopen]; decide)
        rw [bind_of_ok hbump]
        exact follows_parameters hnext
      next => exact follows_refuse hat .openingExpected

/-! ## Ends -/

theorem Input.LeftOf.slice? (hleft : input.LeftOf text) :
    slice? text input.position text.utf8ByteSize = some (String.ofList input.rest) := by
  obtain ⟨front, htext, hposition⟩ := hleft
  have hsplit : String.ofList front ++ String.ofList input.rest = text := by
    rw [← String.ofList_append, ← htext, String.ofList_toList]
  have hslice := slice?_append (String.ofList front) (String.ofList input.rest) ""
  rwa [String.append_empty, ← String.utf8ByteSize_append, hsplit, utf8ByteSize_ofList,
    ← hposition] at hslice

theorem At.hasMore_iff (hat : At text input c) : c.hasMore = true ↔ input.rest ≠ [] := by
  have hlength := congrArg List.length hat.rest_eq
  rw [Cursor.length_rest, length_bytesOf, Cursor.remaining] at hlength
  rw [Cursor.hasMore, decide_eq_true_iff, ne_eq, ← width_eq_zero_iff]
  omega

theorem follows_expectEnd (value : α) (hat : At text input c) :
    Follows text ((expectEnd text >>= fun _ => pure value) c)
      (if input.rest = [] then (.ok value, input)
        else (.error (.trailing (String.ofList input.rest)), input)) := by
  have hget : (get : ByteParser Cursor) c = .ok c c := rfl
  rw [expectEnd, bind_assoc, bind_of_ok hget]
  by_cases hrest : input.rest = []
  · have hend : ¬c.hasMore = true := by
      rw [hat.hasMore_iff]
      exact not_not_intro hrest
    rw [if_pos hrest, if_neg hend]
    exact ⟨c, rfl, hat⟩
  · have hmore := hat.hasMore_iff.mpr hrest
    have hslice := hat.left.slice?
    rw [← hat.position] at hslice
    rw [if_neg hrest, if_pos hmore, bind_assoc, bind_of_ok (position_eq c), bind_assoc,
      bind_of_ok (position_eq c), bind_assoc, bind_of_ok (slice_of_slice? hslice)]
    exact follows_refuse hat _

theorem runToEnd_eq {σ : Type} (scanner : Scanner σ α) (start : σ) (input : Input) :
    scanner.runToEnd start input =
      andThen (scanner.run start input.position input.rest) fun value stop =>
        if stop.rest = [] then (.ok value, stop)
        else (.error (.trailing (String.ofList stop.rest)), stop) := by
  rw [Scanner.runToEnd]
  rcases scanner.run start input.position input.rest with ⟨_ | value, position, _ | ⟨c, rest⟩⟩ <;>
    rfl

theorem follows_toEnd {σ : Type} {scanner : Scanner σ α} {start : σ} {parser : ByteParser α}
    (hparser : Follows text (parser c) (scanner.run start input.position input.rest)) :
    Follows text (toEnd text parser c) (scanner.runToEnd start input) := by
  rw [runToEnd_eq, toEnd]
  exact hparser.bind fun value stop c' _ hat => follows_expectEnd value hat

theorem follows_field (hat : At text input c) : Follows text (field text c) input.readField :=
  follows_toEnd (follows_fieldType hat)

theorem follows_method (hat : At text input c) : Follows text (method text c) input.readMethod :=
  follows_toEnd (follows_signature hat)

end Forwarding.Descriptor
