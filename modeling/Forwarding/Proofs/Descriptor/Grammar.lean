import Forwarding.Descriptor.Parser

/-!
# The grammar of descriptors

Which types and method descriptors can be written down, and which strings are
written forms.  A class name is a row of non-empty segments with dots between
them; its written form has slashes there.  The main statement is that the
grammar describes exactly the written forms of valid descriptors.
-/

namespace Forwarding

/-! ## Valid descriptors -/

/-- A class name that a descriptor can mention. -/
def IsClassName (name : String) : Prop :=
  [] ∉ name.toList.splitOn '.' ∧ ∀ c ∈ name.toList, c ∉ ['/', ';', '[']

def ElementType.Valid : ElementType → Prop
  | .base _ => True
  | .object className => IsClassName className

/-- A type that a descriptor can mention. -/
structure FieldType.Valid (t : FieldType) : Prop where
  dimensions_le : t.dimensions ≤ Descriptor.maxDimensions
  element : t.element.Valid

structure MethodDescriptor.Valid (m : MethodDescriptor) : Prop where
  parameters : ∀ t ∈ m.parameters, t.Valid
  result : ∀ t ∈ m.result, t.Valid

/-! ## Segments -/

theorem TypeName.segmentsFilled_iff (fresh : Bool) (chars : List Char) :
    segmentsFilled fresh chars = true ↔
      [] ∉ if fresh then chars.splitOn '.' else (chars.splitOn '.').tail := by
  induction chars generalizing fresh with
  | nil => cases fresh <;> simp [segmentsFilled, List.splitOn_nil]
  | cons c rest ih =>
      rw [segmentsFilled, List.splitOn_cons_eq_if_modifyHead]
      by_cases hdot : c = '.'
      · cases fresh <;> simp [hdot, ih]
      · obtain ⟨head, tail, hsplit⟩ :=
          List.exists_cons_of_ne_nil (List.splitOn_ne_nil '.' rest)
        cases fresh <;> simp [hdot, ih, hsplit]

theorem isClassName_iff {name : String} :
    IsClassName name ↔
      TypeName.segmentsFilled true name.toList = true ∧
        ∀ c ∈ name.toList, c ∉ ['/', ';', '['] := by
  rw [TypeName.segmentsFilled_iff]
  rfl

theorem toList_slashed (className : String) :
    (slashed className).toList =
      className.toList.map fun c => if c = '.' then '/' else c := by
  rw [slashed, String.toList_map]

namespace Descriptor

/-! ## Written forms -/

def IsSegment (chars : List Char) : Prop :=
  chars ≠ [] ∧ ∀ c ∈ chars, c ∉ ['.', '/', ';', '[']

inductive IsElement : List Char → Prop
  | base (type : BaseType) : IsElement [type.code]
  | object {segments : List (List Char)} (hne : segments ≠ [])
      (hsegments : ∀ segment ∈ segments, IsSegment segment) :
      IsElement ('L' :: ['/'].intercalate segments ++ [';'])

/-- `fieldType = '['* element`, with at most 255 brackets. -/
inductive IsFieldType : List Char → Prop
  | intro {dimensions : Nat} {element : List Char}
      (hdimensions : dimensions ≤ maxDimensions) (helement : IsElement element) :
      IsFieldType (List.replicate dimensions '[' ++ element)

/-- `result = fieldType | 'V'` -/
inductive IsResult : List Char → Prop
  | void : IsResult ['V']
  | value {type : List Char} (htype : IsFieldType type) : IsResult type

/-- `method = '(' fieldType* ')' result` -/
inductive IsMethod : List Char → Prop
  | intro {parameters : List (List Char)} {result : List Char}
      (hparameters : ∀ type ∈ parameters, IsFieldType type)
      (hresult : IsResult result) :
      IsMethod ('(' :: parameters.flatten ++ ')' :: result)

/-! ## Segments and class names -/

private theorem map_intercalate (f : Char → Char) (separator : Char)
    (segments : List (List Char)) :
    ([separator].intercalate segments).map f =
      [f separator].intercalate (segments.map (List.map f)) := by
  induction segments with
  | nil => rfl
  | cons segment rest ih =>
      cases rest with
      | nil => simp
      | cons next rest =>
          simp only [List.intercalate_cons_cons, List.map_append, List.map_cons,
            List.map_nil] at ih ⊢
          rw [ih]

private theorem mem_intercalate {separator c : Char}
    {segments : List (List Char)} (hmem : c ∈ [separator].intercalate segments) :
    c = separator ∨ ∃ segment ∈ segments, c ∈ segment := by
  induction segments with
  | nil => simp at hmem
  | cons segment rest ih =>
      cases rest with
      | nil => exact .inr ⟨segment, by simp, by simpa using hmem⟩
      | cons next rest =>
          simp only [List.intercalate_cons_cons, List.mem_append,
            List.mem_singleton] at hmem
          rcases hmem with (hsegment | hseparator) | hrest
          · exact .inr ⟨segment, by simp, hsegment⟩
          · exact .inl hseparator
          · exact (ih hrest).imp_right fun ⟨other, hother, hc⟩ =>
              ⟨other, List.mem_cons_of_mem _ hother, hc⟩

private theorem mem_splitOn {separator c : Char} {chars segment : List Char}
    (hsegment : segment ∈ chars.splitOn separator) (hc : c ∈ segment) :
    c ∈ chars ∧ c ≠ separator := by
  induction chars generalizing segment with
  | nil => simp_all [List.splitOn_nil]
  | cons first rest ih =>
      rw [List.splitOn_cons_eq_if_modifyHead] at hsegment
      obtain ⟨head, tail, hsplit⟩ :=
        List.exists_cons_of_ne_nil (List.splitOn_ne_nil separator rest)
      by_cases hfirst : first = separator
      · have hrest : segment ∈ rest.splitOn separator := by
          rcases List.mem_cons.mp (by simpa [hfirst] using hsegment) with rfl | hrest
          · simp at hc
          · exact hrest
        exact (ih hrest hc).imp_left (List.mem_cons_of_mem first)
      · rw [if_neg (by simpa using hfirst), hsplit, List.modifyHead_cons] at hsegment
        rcases List.mem_cons.mp hsegment with rfl | htail
        · rcases List.mem_cons.mp hc with rfl | hhead
          · exact ⟨by simp, hfirst⟩
          · exact (ih (by simp [hsplit]) hhead).imp_left (List.mem_cons_of_mem first)
        · exact (ih (by simp [hsplit, htail]) hc).imp_left (List.mem_cons_of_mem first)

private theorem map_slash_of_isSegment {segment : List Char}
    (hsegment : ∀ c ∈ segment, c ≠ '.') :
    segment.map (fun c => if c = '.' then '/' else c) = segment := by
  refine (List.map_congr_left fun c hc => ?_).trans (List.map_id' segment)
  exact if_neg (hsegment c hc)

theorem exists_className_iff {chars : List Char} :
    (∃ name, IsClassName name ∧ (slashed name).toList = chars) ↔
      ∃ segments : List (List Char), segments ≠ [] ∧
        (∀ segment ∈ segments, IsSegment segment) ∧
        ['/'].intercalate segments = chars := by
  constructor
  · rintro ⟨name, ⟨hfilled, hchars⟩, rfl⟩
    refine ⟨name.toList.splitOn '.', List.splitOn_ne_nil _ _, ?_, ?_⟩
    · intro segment hsegment
      refine ⟨fun hempty => hfilled (hempty ▸ hsegment), fun c hc => ?_⟩
      obtain ⟨hmem, hdot⟩ := mem_splitOn hsegment hc
      have hc := hchars c hmem
      simp_all
    · have hsegments : (name.toList.splitOn '.').map
          (List.map fun c => if c = '.' then '/' else c) = name.toList.splitOn '.' := by
        refine (List.map_congr_left fun segment hsegment => ?_).trans (List.map_id' _)
        exact map_slash_of_isSegment fun c hc => (mem_splitOn hsegment hc).2
      have hmap := map_intercalate (fun c => if c = '.' then '/' else c) '.'
        (name.toList.splitOn '.')
      rw [List.intercalate_splitOn, hsegments] at hmap
      rw [toList_slashed]
      exact hmap.symm
  · rintro ⟨segments, hne, hsegments, rfl⟩
    have hdotless : ∀ segment ∈ segments, '.' ∉ segment := fun segment hsegment hdot =>
      (hsegments segment hsegment).2 '.' hdot (by simp)
    refine ⟨String.ofList (['.'].intercalate segments), ⟨?_, ?_⟩, ?_⟩
    · rw [String.toList_ofList, List.splitOn_intercalate '.' hdotless hne]
      exact fun hempty => (hsegments [] hempty).1 rfl
    · rw [String.toList_ofList]
      intro c hc
      rcases mem_intercalate hc with rfl | ⟨segment, hsegment, hc⟩
      · decide
      · have hlegal := (hsegments segment hsegment).2 c hc
        simp_all
    · rw [toList_slashed, String.toList_ofList, map_intercalate]
      congr 1
      refine (List.map_congr_left fun segment hsegment => ?_).trans (List.map_id' _)
      exact map_slash_of_isSegment fun c hc hdot =>
        hdotless segment hsegment (hdot ▸ hc)

/-! ## Written forms of valid descriptors -/

theorem isElement_iff {chars : List Char} :
    IsElement chars ↔ ∃ e : ElementType, e.Valid ∧ e.encode = chars := by
  constructor
  · rintro (⟨type⟩ | ⟨hne, hsegments⟩)
    · exact ⟨.base type, trivial, rfl⟩
    · obtain ⟨name, hname, hwritten⟩ :=
        exists_className_iff.mpr ⟨_, hne, hsegments, rfl⟩
      exact ⟨.object name, hname, by rw [ElementType.encode, hwritten]⟩
  · rintro ⟨e, hvalid, rfl⟩
    cases e with
    | base type => exact .base type
    | object name =>
        obtain ⟨segments, hne, hsegments, hwritten⟩ :=
          exists_className_iff.mp ⟨name, hvalid, rfl⟩
        rw [ElementType.encode, ← hwritten]
        exact .object hne hsegments

theorem isFieldType_iff {chars : List Char} :
    IsFieldType chars ↔ ∃ t : FieldType, t.Valid ∧ t.encodeChars = chars := by
  constructor
  · rintro ⟨hdimensions, helement⟩
    obtain ⟨e, hvalid, rfl⟩ := isElement_iff.mp helement
    exact ⟨⟨_, e⟩, ⟨hdimensions, hvalid⟩, rfl⟩
  · rintro ⟨t, hvalid, rfl⟩
    exact .intro hvalid.dimensions_le (isElement_iff.mpr ⟨_, hvalid.element, rfl⟩)

theorem isResult_iff {chars : List Char} :
    IsResult chars ↔
      ∃ r : ReturnType, (∀ t ∈ r, t.Valid) ∧ ReturnType.encodeChars r = chars := by
  constructor
  · rintro (_ | htype)
    · exact ⟨none, by simp, rfl⟩
    · obtain ⟨t, hvalid, rfl⟩ := isFieldType_iff.mp htype
      exact ⟨some t, by simpa using hvalid, rfl⟩
  · rintro ⟨r, hvalid, rfl⟩
    cases r with
    | none => exact .void
    | some t => exact .value (isFieldType_iff.mpr ⟨t, hvalid t rfl, rfl⟩)

private theorem exists_parameters {written : List (List Char)}
    (htypes : ∀ type ∈ written, IsFieldType type) :
    ∃ parameters : List FieldType, (∀ t ∈ parameters, t.Valid) ∧
      parameters.map FieldType.encodeChars = written := by
  induction written with
  | nil => exact ⟨[], by simp, rfl⟩
  | cons type rest ih =>
      obtain ⟨t, hvalid, rfl⟩ := isFieldType_iff.mp (htypes type (by simp))
      obtain ⟨others, hothers, rfl⟩ :=
        ih fun other hother => htypes other (List.mem_cons_of_mem _ hother)
      refine ⟨t :: others, ?_, rfl⟩
      simpa using ⟨hvalid, hothers⟩

/-- The grammar gives the written forms of valid method descriptors. -/
theorem isMethod_iff {chars : List Char} :
    IsMethod chars ↔
      ∃ m : MethodDescriptor, m.Valid ∧ m.encodeChars = chars := by
  constructor
  · rintro ⟨hparameters, hresult⟩
    obtain ⟨parameters, hvalid, rfl⟩ := exists_parameters hparameters
    obtain ⟨r, hresultValid, rfl⟩ := isResult_iff.mp hresult
    refine ⟨⟨parameters, r⟩, ⟨hvalid, hresultValid⟩, ?_⟩
    rw [MethodDescriptor.encodeChars, List.flatMap_def]
  · rintro ⟨m, hvalid, rfl⟩
    rw [MethodDescriptor.encodeChars, List.flatMap_def]
    refine .intro ?_ (isResult_iff.mpr ⟨m.result, hvalid.result, rfl⟩)
    intro type htype
    obtain ⟨t, ht, rfl⟩ := List.mem_map.mp htype
    exact isFieldType_iff.mpr ⟨t, hvalid.parameters t ht, rfl⟩

end Descriptor

end Forwarding
