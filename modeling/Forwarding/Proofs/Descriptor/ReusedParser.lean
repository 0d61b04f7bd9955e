import Forwarding.Proofs.Descriptor.MethodAgreement

/-!
# One parser for several descriptors

A parser that has read a descriptor, or has refused one, can be asked for the next.  Wherever
it stopped, which may be in the middle of a class name, it is at a boundary between
characters, so it never slices a character in two, and it is where the scanner of characters
stopped.
-/

namespace Forwarding.Descriptor

open ByteParser

variable {α β : Type} {text : String} {c : Cursor} {input : Input}

/-! ## Calls -/

/-- What a parser can be asked for. -/
inductive Call
  | field
  | method
  deriving DecidableEq, Repr

inductive Content
  | field (type : FieldType)
  | method (descriptor : MethodDescriptor)
  deriving DecidableEq, Repr

def Content.encode : Content → String
  | .field type => type.encode
  | .method descriptor => descriptor.encode

/-- The outcome of a call and what it leaves of the input. -/
def Input.perform (input : Input) : Call → Except Fault Content × Input
  | .field => (input.readField.1.map .field, input.readField.2)
  | .method => (input.readMethod.1.map .method, input.readMethod.2)

/-- What is left behind some calls, whether they succeed or not. -/
def Input.after (input : Input) (calls : List Call) : Input :=
  calls.foldl (fun input call => (input.perform call).2) input

namespace ByteParser

def perform (text : String) : Call → ByteParser Content
  | .field => .field <$> field text
  | .method => .method <$> method text

/-- The cursor behind some calls, whether they succeed or not. -/
def after (text : String) (calls : List Call) (c : Cursor) : Cursor :=
  calls.foldl (fun c call => stateAfter (perform text call c)) c

end ByteParser

theorem Follows.map {parser : ByteParser α} {outcome : Except Fault α × Input} (f : α → β)
    (hparser : Follows text (parser c) outcome) :
    Follows text ((f <$> parser) c) (outcome.1.map f, outcome.2) := by
  obtain ⟨found, stop⟩ := outcome
  cases found with
  | ok value =>
      obtain ⟨c', hvalue, hat⟩ := hparser
      exact ⟨c', map_eq_ok.mpr ⟨value, hvalue, rfl⟩, hat⟩
  | error fault =>
      obtain ⟨c', hfault, hat⟩ := hparser
      exact ⟨c', map_eq_error.mpr hfault, hat⟩

theorem follows_perform (hat : At text input c) (call : Call) :
    Follows text (ByteParser.perform text call c) (input.perform call) := by
  cases call with
  | field => exact (follows_field hat).map Content.field
  | method => exact (follows_method hat).map Content.method

variable {outcome : EStateM.Result Stop Cursor α} {found : Except Fault α × Input}

theorem Follows.stateAfter (hfollows : Follows text outcome found) :
    At text found.2 (stateAfter outcome) := by
  obtain ⟨fault | value, stop⟩ := found <;> obtain ⟨c, rfl, hat⟩ := hfollows <;> exact hat

theorem Follows.answerOf (hfollows : Follows text outcome found) :
    answerOf outcome = (Error.ofDescriptor (located found)).mapError .failed := by
  obtain ⟨fault | value, stop⟩ := found <;> obtain ⟨c, rfl, -⟩ := hfollows <;> rfl

theorem at_after (hat : At text input c) (calls : List Call) :
    At text (input.after calls) (ByteParser.after text calls c) := by
  induction calls generalizing input c with
  | nil => exact hat
  | cons call rest ih => exact ih (follows_perform hat call).stateAfter

/-! ## What a call comes to -/

/-- Whether a reading of an input that succeeds takes all of it, and one that does not stops at
its start or behind it. -/
structure ReadsAll (encode : α → String) (input : Input) (found : Except Fault α × Input) :
    Prop where
  refused : ∀ fault, found.1 = .error fault → input.position ≤ found.2.position
  accepted : ∀ value, found.1 = .ok value →
    found.2.rest = [] ∧ encode value = String.ofList input.rest

theorem ReadsAll.map {encode : β → String} (f : α → β)
    (hreads : ReadsAll (fun value => encode (f value)) input found) :
    ReadsAll encode input (found.1.map f, found.2) := by
  obtain ⟨fault | value, stop⟩ := found
  · constructor
    · rintro _ ⟨⟩
      exact hreads.refused fault rfl
    · rintro _ ⟨⟩
  · constructor
    · rintro _ ⟨⟩
    · rintro _ ⟨⟩
      exact hreads.accepted value rfl

/-- A scanner that only accepts what its results are written as takes all of an input, wherever
that starts. -/
theorem readsAll_runToEnd {σ : Type} {scanner : Scanner σ α} {start : σ} {encode : α → String}
    (hencode : ∀ {text value}, located (scanner.runToEnd start (.ofString text)) = .ok value →
      encode value = text) (input : Input) :
    ReadsAll encode input (scanner.runToEnd start input) := by
  cases hread : scanner.runToEnd start input with
  | mk outcome stop =>
      constructor
      · rintro fault rfl
        have hlocated : located (scanner.runToEnd start input) = .error ⟨stop.position, fault⟩ := by
          rw [hread]
          rfl
        obtain ⟨taken, -, -, hposition⟩ := Scanner.stops_of_located_runToEnd hlocated
        exact Nat.le.intro hposition.symm
      · rintro value rfl
        have hlocated : located (scanner.runToEnd start input) = .ok value := by
          rw [hread]
          rfl
        refine ⟨?_, hencode ?_⟩
        · rw [Scanner.runToEnd] at hread
          split at hread
          · cases hread
            rfl
          · cases hread
          · cases hread
        · rw [Scanner.located_runToEnd_eq_ok_iff] at hlocated ⊢
          rwa [Input.ofString, String.toList_ofList]

theorem readsAll_perform (input : Input) (call : Call) :
    ReadsAll Content.encode input (input.perform call) := by
  cases call with
  | field =>
      refine ReadsAll.map Content.field (readsAll_runToEnd (fun hread => ?_) input)
      exact (parseField_eq_ok_iff.mp hread).2
  | method =>
      refine ReadsAll.map Content.method (readsAll_runToEnd (fun hread => ?_) input)
      exact (parseMethod_eq_ok_iff.mp hread).2

theorem Input.LeftOf.position_of_nil (hleft : input.LeftOf text) (hend : input.rest = []) :
    input.position = text.utf8ByteSize := by
  obtain ⟨front, htext, hposition⟩ := hleft
  rw [hend, List.append_nil] at htext
  rw [hposition, ← htext, ← utf8ByteSize_ofList, String.ofList_toList]

/-- Whether a call that a parser of a text gets at one cursor comes to what it may: it ends at
a boundary, whether it succeeds or not, a refusal is one of the descriptor at or behind the
cursor, and a success reads all that is left. -/
structure Sound (text : String) (c : Cursor) (outcome : EStateM.Result Stop Cursor Content) :
    Prop where
  boundary : (⟨(stateAfter outcome).position⟩ : String.Pos.Raw).IsValid text
  inside : (stateAfter outcome).position ≤ text.utf8ByteSize
  refused : ∀ stop c', outcome = .error stop c' →
    ∃ failure, stop = .failed (.malformedDescriptor failure) ∧ c.position ≤ failure.position
  accepted : ∀ content c', outcome = .ok content c' →
    c'.position = text.utf8ByteSize ∧
      slice? text c.position text.utf8ByteSize = some content.encode

theorem sound_of_follows {outcome : EStateM.Result Stop Cursor Content}
    {found : Except Fault Content × Input} (hat : At text input c)
    (hfollows : Follows text outcome found) (hreads : ReadsAll Content.encode input found) :
    Sound text c outcome := by
  have hend := hfollows.stateAfter
  have hvalid := hend.left.isValid
  rw [← hend.position] at hvalid
  obtain ⟨fault | content, stop⟩ := found
  · obtain ⟨c', rfl, hstop⟩ := hfollows
    refine ⟨hvalid, hvalid.le_rawEndPos, ?_, by rintro _ _ ⟨⟩⟩
    rintro _ _ ⟨⟩
    refine ⟨_, rfl, ?_⟩
    rw [hat.position]
    exact hreads.refused fault rfl
  · obtain ⟨c', rfl, hstop⟩ := hfollows
    obtain ⟨hrest, hencode⟩ := hreads.accepted content rfl
    refine ⟨hvalid, hvalid.le_rawEndPos, by rintro _ _ ⟨⟩, ?_⟩
    rintro _ _ ⟨⟩
    refine ⟨hstop.position.trans (hstop.left.position_of_nil hrest), ?_⟩
    rw [hat.position, hat.left.slice?, hencode]

/-- However a parser of a text has been used, its next call is sound, and it comes to the same
as a call on what is left of the text, read in characters. -/
theorem reused_parser_sound (text : String) (calls : List Call) (call : Call) :
    let c := ByteParser.after text calls (.start text.toByteArray.data)
    let outcome := ByteParser.perform text call c
    let found := ((Input.ofString text).after calls).perform call
    Sound text c outcome ∧
      answerOf outcome = (Error.ofDescriptor (located found)).mapError .failed ∧
      (stateAfter outcome).position = found.2.position := by
  have hat := at_after (at_start text) calls
  have hfollows := follows_perform hat call
  exact ⟨sound_of_follows hat hfollows (readsAll_perform _ call), hfollows.answerOf,
    hfollows.stateAfter.position⟩

/-- The last type is trailing data to the first call and all that the second one reads. -/
example : ((Input.ofString "Lé;I").after [.field]).perform .field =
    (.ok (.field ⟨0, .base .int⟩), ⟨5, []⟩) := by
  rfl

end Forwarding.Descriptor
