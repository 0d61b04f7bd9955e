import Forwarding.Error
import Forwarding.Proofs.Descriptor.RoundTrip

/-!
# Where descriptors are refused

From every state that waits for more, some characters lead to a result.  What a
scanner has taken when it stops is therefore the longest part of the input that a
descriptor can begin with, and its length in bytes is the position of the error.
-/

namespace Forwarding.Descriptor

open Scanner

/-! ## Texts that can be extended -/

def AcceptedBy {α : Type} (read : String → Except Failure α) (text : String) : Prop :=
  ∃ value, read text = .ok value

def Extendable (accepted : String → Prop) (text : String) : Prop :=
  ∃ more, accepted (text ++ more)

/-- Whether the longest prefix that can be extended to an accepted text has this many
bytes. -/
structure LongestPrefix (accepted : String → Prop) (text : String) (size : Nat) : Prop where
  reached : ∃ front back, front ++ back = text ∧ front.utf8ByteSize = size ∧
    Extendable accepted front
  longest : ∀ front back, front ++ back = text → Extendable accepted front →
    front.utf8ByteSize ≤ size

/-- Whether texts are only refused as malformed, and where their longest prefix ends
that can be extended; a text that is merely incomplete is refused at its end. -/
def RefusesAtLongest {α : Type} (read : String → Except Failure α) : Prop :=
  ∀ text error, Error.ofDescriptor (read text) = .error error →
    ∃ failure, error = .malformedDescriptor failure ∧
      LongestPrefix (AcceptedBy read) text failure.position ∧
      (Extendable (AcceptedBy read) text → failure.position = text.utf8ByteSize)

theorem LongestPrefix.eq_of_extendable {accepted : String → Prop} {text : String} {size : Nat}
    (hlongest : LongestPrefix accepted text size) (htext : Extendable accepted text) :
    size = text.utf8ByteSize := by
  obtain ⟨front, back, hfront, hsize, -⟩ := hlongest.reached
  have hle := hlongest.longest text "" String.append_empty htext
  have hwhole : text.utf8ByteSize = front.utf8ByteSize + back.utf8ByteSize := by
    rw [← hfront, String.utf8ByteSize_append]
  omega

theorem refusesAtLongest_of_longestPrefix {α : Type} {read : String → Except Failure α}
    (hlongest : ∀ text failure, read text = .error failure →
      LongestPrefix (AcceptedBy read) text failure.position) : RefusesAtLongest read := by
  intro text error hrefused
  cases hread : read text with
  | ok value =>
      rw [hread] at hrefused
      cases hrefused
  | error failure =>
      rw [hread] at hrefused
      cases hrefused
      have hposition := hlongest text failure hread
      exact ⟨failure, rfl, hposition, hposition.eq_of_extendable⟩

theorem utf8ByteSize_ofList (chars : List Char) :
    (String.ofList chars).utf8ByteSize = width chars := by
  induction chars with
  | nil => rfl
  | cons c rest ih =>
      have hcons : String.ofList (c :: rest) = String.singleton c ++ String.ofList rest := by
        apply String.toList_injective
        simp
      rw [hcons, String.utf8ByteSize_append, ih, width_cons, String.utf8ByteSize_singleton]

/-! ## Scanners that can always go on -/

namespace Scanner

variable {σ α : Type} {scanner : Scanner σ α} {start last : σ}

/-- Whether some characters lead from a state to a result. -/
def Completable (scanner : Scanner σ α) (state : σ) : Prop :=
  ∃ more final value, scanner.Reads state more final ∧ scanner.result? final = some value

theorem Stops.longestPrefix {accepted : String → Prop} {text : String} {taken : List Char}
    (hstops : scanner.Stops start text.toList taken last)
    (hcompletable : scanner.result? last = none → scanner.Completable last)
    (haccepted : ∀ text, accepted text ↔ ∃ final value,
      scanner.Reads start text.toList final ∧ scanner.result? final = some value) :
    LongestPrefix accepted text (width taken) where
  reached := by
    obtain ⟨rest, hrest⟩ := hstops.begins
    refine ⟨String.ofList taken, String.ofList rest, ?_, utf8ByteSize_ofList taken, ?_⟩
    · rw [← String.ofList_append, hrest, String.ofList_toList]
    · have hcompleted : scanner.Completable last := by
        cases hresult : scanner.result? last with
        | none => exact hcompletable hresult
        | some value => exact ⟨[], last, value, .nil last, hresult⟩
      obtain ⟨more, final, value, hmore, hresult⟩ := hcompleted
      refine ⟨String.ofList more, (haccepted _).mpr ⟨final, value, ?_, hresult⟩⟩
      rw [String.toList_append, String.toList_ofList, String.toList_ofList]
      exact hstops.reads.append hmore
  longest := by
    intro front back htext hfront
    obtain ⟨more, hmore⟩ := hfront
    obtain ⟨final, value, hreads, -⟩ := (haccepted _).mp hmore
    rw [String.toList_append] at hreads
    have hbegins : front.toList <+: text.toList := by
      rw [← htext, String.toList_append]
      exact List.prefix_append _ _
    have hle := width_le_of_begins (hstops.prefix_of_reads hbegins hreads)
    rwa [← utf8ByteSize_ofList, String.ofList_toList] at hle

theorem located_eq_ok_iff {input : Input} :
    (∃ value, located (scanner.runToEnd start input) = .ok value) ↔
      ∃ final value, scanner.Reads start input.rest final ∧ scanner.result? final = some value := by
  simp only [located_runToEnd_eq_ok_iff]
  exact exists_comm

end Scanner

/-! ## Completing what has been read -/

theorem TypeState.exists_completion {type : TypeState}
    (hwaits : typeScanner.result? type = none) :
    ∃ more t, typeScanner.Reads type more (.complete t) := by
  cases type with
  | brackets count => exact ⟨['I'], _, .single rfl rfl⟩
  | className dimensions backwards =>
      -- One more letter makes sure that the last segment is not empty.
      have hletter : typeScanner.step (.className dimensions backwards) 'a' =
          .ok (.className dimensions ('a' :: backwards)) := rfl
      exact ⟨['a', ';'], _, .cons rfl hletter (.single rfl rfl)⟩
  | complete t => cases hwaits

theorem MethodState.completable {state : MethodState} (hfits : state.Fits)
    (hwaits : methodScanner.result? state = none) : methodScanner.Completable state := by
  have hresult : ∀ backwards type, type.Pending →
      methodScanner.Completable (.result backwards type) := by
    intro backwards type htype
    obtain ⟨more, t, hmore⟩ := TypeState.exists_completion htype.2
    have hreads := reads_ofResult backwards hmore
    cases type with
    | complete t => cases htype.2
    | _ => exact ⟨more, _, _, hreads, rfl⟩
  have hparameter : ∀ backwards type, type.Pending →
      methodScanner.Completable (.parameter backwards type) := by
    intro backwards type htype
    obtain ⟨more, t, hmore⟩ := TypeState.exists_completion htype.2
    have hreads := reads_ofParameter backwards hmore
    have hclose : methodScanner.step (.parameter (t :: backwards) .start) ')' =
        .ok (.result (t :: backwards) .start) := rfl
    have hvoid : methodScanner.step (.result (t :: backwards) .start) 'V' =
        .ok (.complete ⟨(t :: backwards).reverse, none⟩) := rfl
    have hend := Reads.cons rfl hclose (.single rfl hvoid)
    cases type with
    | complete t => cases htype.2
    | _ => exact ⟨more ++ [')', 'V'], _, _, hreads.append hend, rfl⟩
  cases state with
  | opening =>
      obtain ⟨more, final, value, hreads, hvalue⟩ := hparameter [] .start TypeState.start_pending
      have hopen : methodScanner.step .opening '(' = .ok (.parameter [] .start) := rfl
      exact ⟨'(' :: more, final, value, .cons rfl hopen hreads, hvalue⟩
  | parameter backwards type => exact hparameter backwards type hfits.2
  | result backwards type => exact hresult backwards type hfits.2
  | complete descriptor => cases hwaits

/-! ## Whole descriptors -/

theorem longestPrefix_of_parseField {text : String} {failure : Failure}
    (hparse : parseField text = .error failure) :
    LongestPrefix (AcceptedBy parseField) text failure.position := by
  obtain ⟨taken, last, hstops, hposition⟩ := stops_of_located_runToEnd hparse
  rw [hposition, Input.ofString, Nat.zero_add]
  refine hstops.longestPrefix ?_ fun other => located_eq_ok_iff
  intro hwaits
  obtain ⟨more, t, hmore⟩ := TypeState.exists_completion hwaits
  exact ⟨more, .complete t, t, hmore, rfl⟩

theorem longestPrefix_of_parseMethod {text : String} {failure : Failure}
    (hparse : parseMethod text = .error failure) :
    LongestPrefix (AcceptedBy parseMethod) text failure.position := by
  obtain ⟨taken, last, hstops, hposition⟩ := stops_of_located_runToEnd hparse
  rw [hposition, Input.ofString, Nat.zero_add]
  refine hstops.longestPrefix ?_ fun other => located_eq_ok_iff
  have hfits := (hstops.reads.written_eq MethodState.Fits.step trivial).1
  exact MethodState.completable hfits

/-- Descriptors are refused neither too early nor too late. -/
theorem refused_at_longest : RefusesAtLongest parseMethod ∧ RefusesAtLongest parseField := by
  constructor
  · apply refusesAtLongest_of_longestPrefix
    intro text failure
    exact longestPrefix_of_parseMethod
  · apply refusesAtLongest_of_longestPrefix
    intro text failure
    exact longestPrefix_of_parseField

/-- The dot is behind a character of two bytes. -/
theorem refused_at_longest_accented :
    Error.ofDescriptor (parseMethod "(Lé/.b;)V") =
        .error (.malformedDescriptor ⟨5, .illegalInClassName '.'⟩) ∧
      LongestPrefix (AcceptedBy parseMethod) "(Lé/.b;)V" 5 := by
  have hrefused : Error.ofDescriptor (parseMethod "(Lé/.b;)V") =
      .error (.malformedDescriptor ⟨5, .illegalInClassName '.'⟩) := by
    rfl
  obtain ⟨failure, hfailure, hlongest, -⟩ := refused_at_longest.1 _ _ hrefused
  cases hfailure
  exact ⟨hrefused, hlongest⟩

end Forwarding.Descriptor
