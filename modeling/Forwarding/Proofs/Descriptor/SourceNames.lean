import Forwarding.Proofs.Descriptor.ArrayName
import Forwarding.Proofs.Descriptor.RoundTrip

/-!
# Source names and descriptors

A source name that is read as a type is that type's name, unless it has more suffixes than a
word can count, which then shows another number of dimensions.  The type has a descriptor that
is read back unless it has too many dimensions, which takes far fewer.  Without its `[]`
suffixes a source name names nothing if it is no keyword for a base type and cannot stand for a
class.
-/

namespace Forwarding

namespace TypeName

variable {name element : String} {e : ElementType} {dimensions : Nat}

theorem isBare_iff_not_suffix : IsBare name ↔ ¬['[', ']'] <:+ name.toList := by
  constructor
  · rintro hbare ⟨front, hfront⟩
    have hname : String.ofList front ++ "[]" = name := by
      apply String.toList_injective
      simpa using hfront
    rw [← hname] at hbare
    exact not_isBare_append_brackets _ hbare
  · intro hsuffix
    rcases hsplit : split name with ⟨dimensions, element⟩
    obtain ⟨hname, hbare⟩ := append_of_split hsplit
    cases dimensions with
    | zero =>
        rw [arraySuffix_zero, String.append_empty] at hname
        rw [← hname]
        exact hbare
    | succ dimensions =>
        have hends : ['[', ']'] <:+ name.toList := by
          rw [← hname, ← append_brackets, String.toList_append]
          exact List.suffix_append _ _
        exact absurd hends hsuffix

/-- Whether a name without `[]` suffixes is neither empty nor `void` nor has an empty
segment or a character that no class name has. -/
def NamesNothing (element : String) : Prop :=
  element = "" ∨ element = voidName ∨ [] ∈ element.toList.splitOn '.' ∨
    ∃ c ∈ element.toList, c ∈ ['/', ';', '[', ']']

theorem namesNothing_iff : NamesNothing element ↔ namesClass element = false := by
  have hsegments := segmentsFilled_iff true element.toList
  have hempty : element = "" → [] ∈ element.toList.splitOn '.' := by
    rintro rfl
    simp [List.splitOn_nil]
  have hillegal : (element.toList.all fun c => c ∉ ['/', ';', '[', ']']) = false ↔
      ∃ c ∈ element.toList, c ∈ ['/', ';', '[', ']'] := by
    rw [List.all_eq_false]
    simp only [decide_eq_true_eq, not_not]
  rw [if_pos rfl] at hsegments
  rw [namesClass, Bool.and_eq_false_iff, Bool.and_eq_false_iff, hillegal,
    ← Bool.not_eq_true (segmentsFilled _ _), hsegments, not_not, bne_eq_false_iff_eq, NamesNothing,
    or_assoc]
  exact ⟨fun hnothing => hnothing.elim (fun h => Or.inr (Or.inl (hempty h))) id, Or.inr⟩

theorem element?_eq_none_iff : element? element = none ↔ NamesNothing element := by
  rw [namesNothing_iff, element?]
  cases hbase : BaseType.ofName? element with
  | none => simp
  | some b =>
      -- No keyword for a base type is refused as the name of a class.
      have hname : namesClass element = true := by
        rw [← BaseType.name_of_ofName? hbase]
        cases b <;> decide
      simp [hname]

theorem of_element?_eq_some (helement : element? element = some e) :
    e.typeName = element ∧ e.Valid := by
  unfold element? at helement
  split at helement
  next b hbase =>
    cases helement
    exact ⟨BaseType.name_of_ofName? hbase, trivial⟩
  next =>
    split at helement
    next hname =>
      cases helement
      simp only [namesClass, Bool.and_eq_true, List.all_eq_true, decide_eq_true_eq] at hname
      refine ⟨rfl, isClassName_iff.mpr ⟨hname.1.2, fun c hc => ?_⟩⟩
      have hlegal := hname.2 c hc
      simp only [List.mem_cons, not_or] at hlegal ⊢
      exact ⟨hlegal.1, hlegal.2.1, hlegal.2.2.1, List.not_mem_nil⟩
    next => cases helement

end TypeName

namespace Descriptor

open TypeState

theorem width_replicate_bracket (count : Nat) :
    Scanner.width (List.replicate count '[') = count := by
  have hsize : Char.utf8Size '[' = 1 := by decide
  simp [Scanner.width, hsize]

/-- Descriptors are refused at the first bracket that is too many. -/
theorem parseField_of_many_dimensions {t : FieldType} (hmany : maxDimensions < t.dimensions) :
    parseField t.encode = .error ⟨maxDimensions, .tooManyDimensions⟩ := by
  obtain ⟨more, hmore⟩ := Nat.exists_eq_add_of_lt hmany
  have hchars : t.encodeChars = List.replicate maxDimensions '[' ++
      '[' :: (List.replicate more '[' ++ t.element.encode) := by
    rw [FieldType.encodeChars, hmore, Nat.add_assoc, ← List.replicate_append_replicate,
      List.replicate_succ, List.append_assoc, List.cons_append]
  have hbrackets := reads_brackets 0 maxDimensions (by simp)
  have hrun := hbrackets.run_append 0 ('[' :: (List.replicate more '[' ++ t.element.encode))
  rw [← hchars, width_replicate_bracket] at hrun
  have hrefused : typeScanner.run (.brackets (0 + maxDimensions)) (0 + maxDimensions)
      ('[' :: (List.replicate more '[' ++ t.element.encode)) =
      (.error .tooManyDimensions,
        ⟨maxDimensions, '[' :: (List.replicate more '[' ++ t.element.encode)⟩) := rfl
  rw [hrefused] at hrun
  have hstart : typeScanner.run .start 0 t.encodeChars = _ := hrun
  simp only [parseField, Input.readField, Scanner.runToEnd, Input.ofString, FieldType.encode,
    String.toList_ofList, hstart, located]

/-- Every name is one without a suffix and some suffixes behind it, in one way only, and is read
as no type if and only if the former names nothing.  A type that it is read as has as many
dimensions as a word of 32 bits counts suffixes, so that the name is that of the type if and
only if there are fewer than `2 ^ 31`.  The descriptor of the type is read back if and only if
it has no more dimensions than a descriptor may have, and is refused at the first bracket
behind those otherwise. -/
theorem source_names_round_trip (name : String) :
    (∃ element suffixes, name = element ++ arraySuffix suffixes ∧
      ¬['[', ']'] <:+ element.toList) ∧
    ∀ element suffixes, name = element ++ arraySuffix suffixes →
      ¬['[', ']'] <:+ element.toList →
      (FieldType.ofTypeName? name = none ↔ TypeName.NamesNothing element) ∧
      ∀ t, FieldType.ofTypeName? name = some t →
        t.typeName = element ++ arraySuffix (TypeName.counted suffixes) ∧
        (t.typeName = name ↔ suffixes < 2 ^ 31) ∧
        (parseField t.encode = .ok t ↔ t.dimensions ≤ 255) ∧
        (255 < t.dimensions → parseField t.encode = .error ⟨255, .tooManyDimensions⟩) := by
  constructor
  · rcases hsplit : TypeName.split name with ⟨suffixes, element⟩
    obtain ⟨hname, hbare⟩ := TypeName.append_of_split hsplit
    exact ⟨element, suffixes, hname.symm, TypeName.isBare_iff_not_suffix.mp hbare⟩
  · rintro element suffixes rfl hsuffix
    have hbare := TypeName.isBare_iff_not_suffix.mpr hsuffix
    rw [TypeName.ofTypeName?_append hbare]
    refine ⟨by rw [Option.map_eq_none_iff, TypeName.element?_eq_none_iff], fun t ht => ?_⟩
    obtain ⟨e, helement, rfl⟩ := Option.map_eq_some_iff.mp ht
    obtain ⟨htypeName, hvalid⟩ := TypeName.of_element?_eq_some helement
    have hname : FieldType.typeName ⟨TypeName.counted suffixes, e⟩ =
        element ++ arraySuffix (TypeName.counted suffixes) := by
      rw [FieldType.typeName, htypeName]
    refine ⟨hname, ?_, ?_, parseField_of_many_dimensions⟩
    · rw [hname, TypeName.append_arraySuffix_inj hbare hbare, ← TypeName.counted_eq_self_iff]
      exact and_iff_left rfl
    · rw [parseField_eq_ok_iff]
      exact ⟨fun hread => hread.1.dimensions_le, fun hfew => ⟨⟨hfew, hvalid⟩, rfl⟩⟩

/-- One dimension more than a descriptor may have is no matter to a name, and one bracket
without its partner is. -/
theorem source_names_round_trip_deep :
    (∃ t, FieldType.ofTypeName? ("a.B" ++ arraySuffix 256) = some t ∧
      t.typeName = "a.B" ++ arraySuffix 256 ∧
      parseField t.encode = .error ⟨255, .tooManyDimensions⟩) ∧
    (∃ t, FieldType.ofTypeName? "long[][]" = some t ∧ t.typeName = "long[][]" ∧
      parseField t.encode = .ok t) ∧
    FieldType.ofTypeName? "a[][" = none := by
  have hbare : ¬['[', ']'] <:+ "a.B".toList := by decide
  have hdeep : FieldType.ofTypeName? ("a.B" ++ arraySuffix 256) =
      some ⟨256, .object "a.B"⟩ := by
    have helement : TypeName.element? "a.B" = some (.object "a.B") := by decide
    rw [TypeName.ofTypeName?_append (TypeName.isBare_iff_not_suffix.mpr hbare), helement]
    rfl
  have hlong : FieldType.ofTypeName? "long[][]" = some ⟨2, .base .long⟩ := by decide
  obtain ⟨-, hname, -, hrefused⟩ :=
    ((source_names_round_trip _).2 "a.B" 256 rfl hbare).2 _ hdeep
  obtain ⟨-, hname', hread, -⟩ :=
    ((source_names_round_trip _).2 "long" 2 (by decide) (by decide)).2 _ hlong
  refine ⟨⟨_, hdeep, hname.mpr (by decide), hrefused (by decide)⟩,
    ⟨_, hlong, hname'.mpr (by decide), hread.mpr (by decide)⟩, ?_⟩
  refine ((source_names_round_trip "a[][").2 "a[][" 0 rfl (by decide)).1.mpr ?_
  exact Or.inr (Or.inr (Or.inr ⟨'[', by decide, by decide⟩))

/-- With `2 ^ 31` suffixes the word has turned negative, and the name of an array is read as the
element. -/
theorem not_own_name :
    FieldType.ofTypeName? ("int" ++ arraySuffix (2 ^ 31)) = some ⟨0, .base .int⟩ ∧
      FieldType.typeName ⟨0, .base .int⟩ ≠ "int" ++ arraySuffix (2 ^ 31) := by
  have hcounted : TypeName.counted (2 ^ 31) = 0 := by decide
  -- The suffixes are too many to be written out.
  generalize hmany : 2 ^ 31 = suffixes at hcounted ⊢
  have hbare : TypeName.IsBare "int" := by decide
  have helement : TypeName.element? "int" = some (.base .int) := by decide
  constructor
  · rw [TypeName.ofTypeName?_append hbare, helement, hcounted]
    rfl
  · intro hname
    have hnone : suffixes = 0 := TypeName.append_arraySuffix_eq_self_iff.mp hname.symm
    rw [← hmany] at hnone
    cases hnone

end Descriptor

end Forwarding
