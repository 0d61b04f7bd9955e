import Forwarding.Proofs.Descriptor.Grammar
import Forwarding.Proofs.Descriptor.Reading

/-!
# Reading inverts writing

Each state of the two scanners stands for the characters that lead to it, and
every step adds its character to them.  Hence what is read is what would be
written, and only valid descriptors are read; conversely the written form of a
valid descriptor leads through its own prefixes to the state that holds it.
-/

namespace Forwarding.Descriptor

open Scanner

namespace TypeState

/-! ## Dots between segments -/

/-- Every dot follows a segment, in a name given backwards. -/
def spaced : List Char → Bool
  | [] => true
  | c :: earlier => (c ≠ '.' || !segmentEmpty earlier) && spaced earlier

theorem segmentsFilled_reverse_append (backwards rest : List Char) :
    TypeName.segmentsFilled true (backwards.reverse ++ rest) =
      (spaced backwards &&
        TypeName.segmentsFilled (segmentEmpty backwards) rest) := by
  induction backwards generalizing rest with
  | nil => simp [spaced, segmentEmpty]
  | cons c earlier ih =>
      rw [List.reverse_cons, List.append_assoc, List.singleton_append, ih]
      by_cases hdot : c = '.'
      · simp [spaced, segmentEmpty, TypeName.segmentsFilled, hdot,
          Bool.and_left_comm, Bool.and_assoc]
      · have hother : (c == '.') = false := beq_false_of_ne hdot
        simp [spaced, segmentEmpty, TypeName.segmentsFilled, hdot, hother]

/-- A name can end where every dot follows a segment and so does the end. -/
theorem segmentsFilled_iff_spaced (chars : List Char) :
    TypeName.segmentsFilled true chars = true ↔
      spaced chars.reverse = true ∧ segmentEmpty chars.reverse = false := by
  have hreverse := segmentsFilled_reverse_append chars.reverse []
  rw [List.reverse_reverse, List.append_nil] at hreverse
  rw [hreverse]
  simp [TypeName.segmentsFilled]

theorem spaced_of_append {later earlier : List Char}
    (hspaced : spaced (later ++ earlier) = true) : spaced earlier = true := by
  induction later with
  | nil => exact hspaced
  | cons c later ih =>
      simp only [List.cons_append, spaced, Bool.and_eq_true] at hspaced
      exact ih hspaced.2

/-! ## States of one type -/

/-- The characters that lead to a state. -/
def written : TypeState → List Char
  | .brackets count => List.replicate count '['
  | .className dimensions backwards =>
      List.replicate dimensions '[' ++ 'L' ::
        backwards.reverse.map fun c => if c = '.' then '/' else c
  | .complete type => type.encodeChars

/-- What a valid type has been read so far. -/
def Fits : TypeState → Prop
  | .brackets count => count ≤ maxDimensions
  | .className dimensions backwards =>
      dimensions ≤ maxDimensions ∧ spaced backwards = true ∧
        ∀ c ∈ backwards, c ∉ ['/', ';', '[']
  | .complete type => type.Valid

def Pending (type : TypeState) : Prop :=
  type.Fits ∧ typeScanner.result? type = none

theorem start_pending : start.Pending :=
  ⟨Nat.zero_le _, rfl⟩

theorem Fits.stepBrackets {count : Nat} {c : Char} {next : TypeState}
    (hcount : count ≤ maxDimensions)
    (hstep : stepBrackets count c = .ok next) :
    next.Fits ∧ next.written = List.replicate count '[' ++ [c] := by
  unfold TypeState.stepBrackets at hstep
  split at hstep
  next hbracket =>
    split at hstep
    next hlt =>
      cases hstep
      exact ⟨Nat.succ_le_of_lt hlt, by rw [hbracket]; exact List.replicate_succ'⟩
    next => cases hstep
  next =>
    split at hstep
    next hclass =>
      cases hstep
      exact ⟨⟨hcount, rfl, by simp⟩, by rw [hclass]; rfl⟩
    next =>
      split at hstep
      next => cases hstep
      next =>
        split at hstep
        next base hbase =>
          cases hstep
          refine ⟨⟨hcount, trivial⟩, ?_⟩
          rw [← BaseType.code_of_ofCode? hbase]
          rfl
        next => cases hstep

theorem Fits.stepClassName {dimensions : Nat} {backwards : List Char} {c : Char}
    {next : TypeState} (hfits : (TypeState.className dimensions backwards).Fits)
    (hstep : stepClassName dimensions backwards c = .ok next) :
    next.Fits ∧
      next.written = (TypeState.className dimensions backwards).written ++ [c] := by
  obtain ⟨hdimensions, hspaced, hlegal⟩ := hfits
  unfold TypeState.stepClassName at hstep
  split at hstep
  next hend =>
    split at hstep
    next => cases hstep
    next =>
      split at hstep
      next => cases hstep
      next hsegment =>
        cases hstep
        refine ⟨⟨hdimensions, isClassName_iff.mpr ⟨?_, ?_⟩⟩, ?_⟩
        · rw [String.toList_ofList, segmentsFilled_iff_spaced, List.reverse_reverse]
          exact ⟨hspaced, by simpa using hsegment⟩
        · simpa using hlegal
        · simp [written, FieldType.encodeChars, ElementType.encode, toList_slashed,
            hend]
  next hend =>
    split at hstep
    next hslash =>
      split at hstep
      next => cases hstep
      next hsegment =>
        cases hstep
        refine ⟨⟨hdimensions, ?_, ?_⟩, ?_⟩
        · simpa [spaced, hspaced] using hsegment
        · simpa using hlegal
        · simp [written, hslash]
    next hslash =>
      split at hstep
      next => cases hstep
      next hillegal =>
        cases hstep
        rw [not_or] at hillegal
        refine ⟨⟨hdimensions, ?_, ?_⟩, ?_⟩
        · simp [spaced, hspaced, hillegal.1]
        · simpa [hend, hslash, hillegal.2] using hlegal
        · simp [written, hillegal.1]

theorem Fits.step {state next : TypeState} {c : Char} (hfits : state.Fits)
    (hwaits : typeScanner.result? state = none)
    (hstep : typeScanner.step state c = .ok next) :
    next.Fits ∧ next.written = state.written ++ [c] := by
  cases state with
  | brackets count => exact Fits.stepBrackets hfits hstep
  | className dimensions backwards => exact hfits.stepClassName hstep
  | complete type => cases hwaits

theorem reads_brackets (count dimensions : Nat)
    (hdimensions : count + dimensions ≤ maxDimensions) :
    typeScanner.Reads (.brackets count) (List.replicate dimensions '[')
      (.brackets (count + dimensions)) := by
  have hstep : ∀ n < maxDimensions,
      typeScanner.step (.brackets n) '[' = .ok (.brackets (n + 1)) := by
    intro n hlt
    simp [typeScanner, TypeState.step, TypeState.stepBrackets, hlt]
  exact reads_replicate TypeState.brackets (fun _ => rfl) hstep count dimensions hdimensions

theorem stepClassName_eq_ok (dimensions : Nat) {backwards : List Char} {c : Char}
    (hlegal : c ∉ ['/', ';', '['])
    (hsegment : c = '.' → segmentEmpty backwards = false) :
    TypeState.stepClassName dimensions backwards (if c = '.' then '/' else c) =
      .ok (.className dimensions (c :: backwards)) := by
  simp only [List.mem_cons, List.not_mem_nil, or_false, not_or] at hlegal
  by_cases hdot : c = '.'
  · simp [TypeState.stepClassName, hdot, hsegment hdot]
  · simp [TypeState.stepClassName, hdot, hlegal]

theorem reads_segments (dimensions : Nat) {backwards chars : List Char}
    (hspaced : spaced (chars.reverse ++ backwards) = true)
    (hlegal : ∀ c ∈ chars, c ∉ ['/', ';', '[']) :
    typeScanner.Reads (.className dimensions backwards)
      (chars.map fun c => if c = '.' then '/' else c)
      (.className dimensions (chars.reverse ++ backwards)) := by
  induction chars generalizing backwards with
  | nil => exact .nil _
  | cons c rest ih =>
      rw [List.reverse_cons, List.append_assoc, List.singleton_append] at hspaced ⊢
      have hsegment : c = '.' → segmentEmpty backwards = false := by
        intro hdot
        have hc := spaced_of_append hspaced
        simp only [spaced, Bool.and_eq_true] at hc
        simpa [hdot] using hc.1
      have hstep := stepClassName_eq_ok dimensions (hlegal c (by simp)) hsegment
      exact .cons rfl hstep (ih hspaced fun other hother =>
        hlegal other (List.mem_cons_of_mem c hother))

theorem reads_element {count : Nat} {e : ElementType} (hvalid : e.Valid) :
    typeScanner.Reads (.brackets count) e.encode (.complete ⟨count, e⟩) := by
  cases e with
  | base type =>
      refine .single rfl ?_
      cases type <;> rfl
  | object name =>
      obtain ⟨hfilled, hlegal⟩ := isClassName_iff.mp hvalid
      obtain ⟨hspaced, hsegment⟩ := (segmentsFilled_iff_spaced _).mp hfilled
      rw [← List.append_nil name.toList.reverse] at hspaced
      have hname := reads_segments count hspaced hlegal
      rw [List.append_nil, ← toList_slashed] at hname
      have hend : typeScanner.step (.className count name.toList.reverse) ';' =
          .ok (.complete ⟨count, .object name⟩) := by
        have hne : name.toList.reverse.isEmpty = false := by
          simp only [segmentEmpty, Bool.or_eq_false_iff] at hsegment
          exact hsegment.1
        simp only [typeScanner, TypeState.step, TypeState.stepClassName, hsegment, hne,
          if_true, List.reverse_reverse, String.ofList_toList]
        rfl
      have hopen : typeScanner.step (.brackets count) 'L' =
          .ok (.className count []) := rfl
      exact .cons rfl hopen (hname.append (.single rfl hend))

theorem reads_encodeChars {t : FieldType} (hvalid : t.Valid) :
    typeScanner.Reads .start t.encodeChars (.complete t) := by
  have hbrackets := reads_brackets 0 t.dimensions (by simpa using hvalid.dimensions_le)
  rw [Nat.zero_add] at hbrackets
  exact hbrackets.append (reads_element hvalid.element)

end TypeState

/-! ## States of a method -/

namespace MethodState

/-- Between the parentheses, a complete type is one more parameter. -/
def ofParameter (backwards : List FieldType) : TypeState → MethodState
  | .complete type => .parameter (type :: backwards) .start
  | type => .parameter backwards type

/-- Behind the parentheses, a complete type is the result. -/
def ofResult (backwards : List FieldType) : TypeState → MethodState
  | .complete type => .complete ⟨backwards.reverse, some type⟩
  | type => .result backwards type

/-- The characters that lead to a state. -/
def written : MethodState → List Char
  | .opening => []
  | .parameter backwards type =>
      '(' :: backwards.reverse.flatMap FieldType.encodeChars ++ type.written
  | .result backwards type =>
      '(' :: backwards.reverse.flatMap FieldType.encodeChars ++ ')' :: type.written
  | .complete descriptor => descriptor.encodeChars

/-- What a valid descriptor has been read so far. -/
def Fits : MethodState → Prop
  | .opening => True
  | .parameter backwards type => (∀ t ∈ backwards, t.Valid) ∧ type.Pending
  | .result backwards type => (∀ t ∈ backwards, t.Valid) ∧ type.Pending
  | .complete descriptor => descriptor.Valid

theorem fits_ofParameter {backwards : List FieldType} {type : TypeState}
    (hbackwards : ∀ t ∈ backwards, t.Valid) (htype : type.Fits) :
    (ofParameter backwards type).Fits ∧
      (ofParameter backwards type).written =
        '(' :: backwards.reverse.flatMap FieldType.encodeChars ++ type.written := by
  cases type with
  | brackets count => exact ⟨⟨hbackwards, htype, rfl⟩, rfl⟩
  | className dimensions name => exact ⟨⟨hbackwards, htype, rfl⟩, rfl⟩
  | complete t =>
      refine ⟨⟨?_, TypeState.start_pending⟩, ?_⟩
      · simpa using ⟨htype, hbackwards⟩
      · simp [ofParameter, written, TypeState.start, TypeState.written]

theorem fits_ofResult {backwards : List FieldType} {type : TypeState}
    (hbackwards : ∀ t ∈ backwards, t.Valid) (htype : type.Fits) :
    (ofResult backwards type).Fits ∧
      (ofResult backwards type).written =
        '(' :: backwards.reverse.flatMap FieldType.encodeChars ++ ')' :: type.written := by
  cases type with
  | brackets count => exact ⟨⟨hbackwards, htype, rfl⟩, rfl⟩
  | className dimensions name => exact ⟨⟨hbackwards, htype, rfl⟩, rfl⟩
  | complete t =>
      refine ⟨⟨by simpa using hbackwards, fun result hresult => ?_⟩, ?_⟩
      · exact Option.mem_some_iff.mp hresult ▸ htype
      · simp [ofResult, written, TypeState.written, MethodDescriptor.encodeChars,
          ReturnType.encodeChars]

theorem stepParameter_eq (backwards : List FieldType) (type : TypeState) (c : Char) :
    stepParameter backwards type c =
      if type = .start ∧ c = ')' then .ok (.result backwards .start)
      else (type.step c).map (ofParameter backwards) := by
  unfold stepParameter
  split
  next => rfl
  next =>
    cases type.step c with
    | error fault => rfl
    | ok next => cases next <;> rfl

theorem stepResult_eq (backwards : List FieldType) (type : TypeState) (c : Char) :
    stepResult backwards type c =
      if type = .start ∧ c = 'V' then .ok (.complete ⟨backwards.reverse, none⟩)
      else (type.step c).map (ofResult backwards) := by
  unfold stepResult
  split
  next => rfl
  next =>
    cases type.step c with
    | error fault => rfl
    | ok next => cases next <;> rfl

theorem Fits.stepParameter {backwards : List FieldType} {type : TypeState} {c : Char}
    {next : MethodState} (hfits : (MethodState.parameter backwards type).Fits)
    (hstep : stepParameter backwards type c = .ok next) :
    next.Fits ∧ next.written = (MethodState.parameter backwards type).written ++ [c] := by
  obtain ⟨hbackwards, htype, hwaits⟩ := hfits
  rw [stepParameter_eq] at hstep
  split at hstep
  next hclose =>
    obtain ⟨rfl, rfl⟩ := hclose
    cases hstep
    exact ⟨⟨hbackwards, TypeState.start_pending⟩, by
      simp [written, TypeState.start, TypeState.written]⟩
  next =>
    cases htypeStep : type.step c with
    | error fault => rw [htypeStep] at hstep; cases hstep
    | ok nextType =>
        rw [htypeStep] at hstep
        cases hstep
        obtain ⟨hnext, hwritten⟩ := htype.step hwaits htypeStep
        obtain ⟨hfits, heq⟩ := fits_ofParameter hbackwards hnext
        exact ⟨hfits, by rw [heq, hwritten]; simp [written]⟩

theorem Fits.stepResult {backwards : List FieldType} {type : TypeState} {c : Char}
    {next : MethodState} (hfits : (MethodState.result backwards type).Fits)
    (hstep : stepResult backwards type c = .ok next) :
    next.Fits ∧ next.written = (MethodState.result backwards type).written ++ [c] := by
  obtain ⟨hbackwards, htype, hwaits⟩ := hfits
  rw [stepResult_eq] at hstep
  split at hstep
  next hvoid =>
    obtain ⟨rfl, rfl⟩ := hvoid
    cases hstep
    refine ⟨⟨by simpa using hbackwards, by simp⟩, ?_⟩
    simp [written, TypeState.start, TypeState.written, MethodDescriptor.encodeChars,
      ReturnType.encodeChars]
  next =>
    cases htypeStep : type.step c with
    | error fault => rw [htypeStep] at hstep; cases hstep
    | ok nextType =>
        rw [htypeStep] at hstep
        cases hstep
        obtain ⟨hnext, hwritten⟩ := htype.step hwaits htypeStep
        obtain ⟨hfits, heq⟩ := fits_ofResult hbackwards hnext
        exact ⟨hfits, by rw [heq, hwritten]; simp [written]⟩

theorem Fits.step {state next : MethodState} {c : Char} (hfits : state.Fits)
    (hwaits : methodScanner.result? state = none)
    (hstep : methodScanner.step state c = .ok next) :
    next.Fits ∧ next.written = state.written ++ [c] := by
  cases state with
  | opening =>
      change (if c = '(' then _ else _) = _ at hstep
      split at hstep
      next hopen =>
        cases hstep
        exact ⟨⟨by simp, TypeState.start_pending⟩, by rw [hopen]; rfl⟩
      next => cases hstep
  | parameter backwards type => exact hfits.stepParameter hstep
  | result backwards type => exact hfits.stepResult hstep
  | complete descriptor => cases hwaits

/-! ## Types inside a method -/

/-- A type is read inside of a descriptor the way it is read on its own, if it
never begins with the character that has another meaning there. -/
theorem reads_inside {image : TypeState → MethodState} (other : Char)
    (otherwise : MethodState) {first last : TypeState} {taken : List Char}
    (hwait : ∀ {state}, typeScanner.result? state = none →
      methodScanner.result? (image state) = none)
    (hstep : ∀ {state c}, typeScanner.result? state = none →
      methodScanner.step (image state) c =
        if state = .start ∧ c = other then .ok otherwise else (state.step c).map image)
    (hother : ∀ next, typeScanner.step .start other ≠ .ok next)
    (hreads : typeScanner.Reads first taken last) :
    methodScanner.Reads (image first) taken (image last) := by
  refine hreads.map hwait fun {state next c} hwaits hnext => ?_
  have htype : ¬(state = .start ∧ c = other) := by
    rintro ⟨rfl, rfl⟩
    exact hother next hnext
  rw [hstep hwaits, if_neg htype, show state.step c = .ok next from hnext]
  rfl

theorem reads_ofParameter (backwards : List FieldType) {first last : TypeState}
    {taken : List Char} (hreads : typeScanner.Reads first taken last) :
    methodScanner.Reads (ofParameter backwards first) taken
      (ofParameter backwards last) := by
  refine reads_inside ')' (.result backwards .start) (fun {state} hwaits => ?_)
    (fun {state c} hwaits => ?_) (fun next hnext => by cases hnext) hreads
  · cases state with
    | brackets count => rfl
    | className dimensions name => rfl
    | complete type => cases hwaits
  · cases state with
    | brackets count => exact stepParameter_eq backwards _ c
    | className dimensions name => exact stepParameter_eq backwards (.className dimensions name) c
    | complete type => cases hwaits

theorem reads_ofResult (backwards : List FieldType) {first last : TypeState}
    {taken : List Char} (hreads : typeScanner.Reads first taken last) :
    methodScanner.Reads (ofResult backwards first) taken (ofResult backwards last) := by
  refine reads_inside 'V' (.complete ⟨backwards.reverse, none⟩)
    (fun {state} hwaits => ?_) (fun {state c} hwaits => ?_)
    (fun next hnext => by cases hnext) hreads
  · cases state with
    | brackets count => rfl
    | className dimensions name => rfl
    | complete type => cases hwaits
  · cases state with
    | brackets count => exact stepResult_eq backwards _ c
    | className dimensions name => exact stepResult_eq backwards (.className dimensions name) c
    | complete type => cases hwaits

theorem reads_parameters (backwards : List FieldType) {parameters : List FieldType}
    (hvalid : ∀ t ∈ parameters, t.Valid) :
    methodScanner.Reads (.parameter backwards .start)
      (parameters.flatMap FieldType.encodeChars)
      (.parameter (parameters.reverse ++ backwards) .start) := by
  induction parameters generalizing backwards with
  | nil => exact .nil _
  | cons t rest ih =>
      have hfirst := reads_ofParameter backwards
        (TypeState.reads_encodeChars (hvalid t (by simp)))
      rw [List.reverse_cons, List.append_assoc, List.singleton_append,
        List.flatMap_cons]
      exact hfirst.append
        (ih _ fun other hother => hvalid other (List.mem_cons_of_mem t hother))

theorem reads_result (backwards : List FieldType) {result : ReturnType}
    (hvalid : ∀ t ∈ result, t.Valid) :
    methodScanner.Reads (.result backwards .start) (ReturnType.encodeChars result)
      (.complete ⟨backwards.reverse, result⟩) := by
  cases result with
  | none => exact .single rfl rfl
  | some t => exact reads_ofResult backwards (TypeState.reads_encodeChars (hvalid t rfl))

theorem reads_encodeChars {m : MethodDescriptor} (hvalid : m.Valid) :
    methodScanner.Reads .opening m.encodeChars (.complete m) := by
  have hparameters := reads_parameters [] hvalid.parameters
  have hresult := reads_result m.parameters.reverse hvalid.result
  rw [List.append_nil] at hparameters
  rw [List.reverse_reverse] at hresult
  have hopen : methodScanner.step .opening '(' = .ok (.parameter [] .start) := rfl
  have hclose : methodScanner.step (.parameter m.parameters.reverse .start) ')' =
      .ok (.result m.parameters.reverse .start) := rfl
  exact .cons rfl hopen (hparameters.append (.cons rfl hclose hresult))

end MethodState

/-! ## Whole descriptors -/

theorem parseField_eq_ok_iff {text : String} {t : FieldType} :
    parseField text = .ok t ↔ t.Valid ∧ t.encode = text := by
  rw [parseField, Input.readField, located_runToEnd_eq_ok_iff]
  constructor
  · rintro ⟨last, hreads, hresult⟩
    obtain ⟨hfits, hwritten⟩ :=
      hreads.written_eq TypeState.Fits.step TypeState.start_pending.1
    cases last with
    | complete type =>
        cases hresult
        refine ⟨hfits, ?_⟩
        rw [FieldType.encode, show t.encodeChars = text.toList from hwritten,
          String.ofList_toList]
    | _ => cases hresult
  · rintro ⟨hvalid, rfl⟩
    refine ⟨.complete t, ?_, rfl⟩
    rw [Input.ofString, FieldType.encode, String.toList_ofList]
    exact TypeState.reads_encodeChars hvalid

theorem parseMethod_eq_ok_iff {text : String} {m : MethodDescriptor} :
    parseMethod text = .ok m ↔ m.Valid ∧ m.encode = text := by
  rw [parseMethod, Input.readMethod, located_runToEnd_eq_ok_iff]
  constructor
  · rintro ⟨last, hreads, hresult⟩
    obtain ⟨hfits, hwritten⟩ := hreads.written_eq MethodState.Fits.step trivial
    cases last with
    | complete descriptor =>
        cases hresult
        refine ⟨hfits, ?_⟩
        rw [MethodDescriptor.encode, show m.encodeChars = text.toList from hwritten,
          String.ofList_toList]
    | _ => cases hresult
  · rintro ⟨hvalid, rfl⟩
    refine ⟨.complete m, ?_, rfl⟩
    rw [Input.ofString, MethodDescriptor.encode, String.toList_ofList]
    exact MethodState.reads_encodeChars hvalid

theorem exists_parseField_eq_ok_iff {text : String} :
    (∃ t, parseField text = .ok t) ↔ IsFieldType text.toList := by
  simp only [parseField_eq_ok_iff, isFieldType_iff, FieldType.encode,
    ← String.toList_inj, String.toList_ofList]

theorem exists_parseMethod_eq_ok_iff {text : String} :
    (∃ m, parseMethod text = .ok m) ↔ IsMethod text.toList := by
  simp only [parseMethod_eq_ok_iff, isMethod_iff, MethodDescriptor.encode,
    ← String.toList_inj, String.toList_ofList]

/-- Reading inverts writing: a descriptor is read from a string exactly when
it is valid and the string is its written form.  So the strings that can be
read are those of the grammar. -/
theorem parse_inverts_encode :
    (∀ (text : String) (m : MethodDescriptor),
      parseMethod text = .ok m ↔ m.Valid ∧ m.encode = text) ∧
    (∀ (text : String) (t : FieldType),
      parseField text = .ok t ↔ t.Valid ∧ t.encode = text) ∧
    (∀ text : String, (∃ m, parseMethod text = .ok m) ↔ IsMethod text.toList) ∧
    ∀ text : String, (∃ t, parseField text = .ok t) ↔ IsFieldType text.toList :=
  ⟨fun _ _ => parseMethod_eq_ok_iff, fun _ _ => parseField_eq_ok_iff,
    fun _ => exists_parseMethod_eq_ok_iff, fun _ => exists_parseField_eq_ok_iff⟩

end Forwarding.Descriptor
