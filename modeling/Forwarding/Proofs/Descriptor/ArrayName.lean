import Mathlib.Algebra.Group.Nat.Defs
import Forwarding.Descriptor.FieldType

/-!
# The names of array types

A source name is a bare name with a number of `[]` suffixes, and in one way
only.  A word that counts them is right as long as it can hold their number.
-/

namespace Forwarding

@[simp] theorem arraySuffix_zero : arraySuffix 0 = "" := rfl

namespace TypeName

/-- Whether a name has no `[]` suffix. -/
def IsBare (name : String) : Prop :=
  split name = (0, name)

instance (name : String) : Decidable (IsBare name) :=
  inferInstanceAs (Decidable (split name = (0, name)))

/-- A suffix as the backward reading meets it. -/
def backwardSuffix (dimensions : Nat) : List Char :=
  (List.replicate dimensions [']', '[']).flatten

theorem backwardSuffix_succ (dimensions : Nat) :
    backwardSuffix (dimensions + 1) = ']' :: '[' :: backwardSuffix dimensions := by
  simp [backwardSuffix, List.replicate_succ]

theorem reverse_toList_arraySuffix (dimensions : Nat) :
    (arraySuffix dimensions).toList.reverse = backwardSuffix dimensions := by
  simp [arraySuffix, backwardSuffix, List.reverse_flatten]

theorem append_of_stripBackwards {chars element : List Char} {dimensions : Nat}
    (hstrip : stripBackwards chars = (dimensions, element)) :
    chars = backwardSuffix dimensions ++ element ∧
      stripBackwards element = (0, element) := by
  fun_induction stripBackwards chars generalizing dimensions with
  | case1 rest inner name hinner ih =>
      cases hstrip
      obtain ⟨hrest, hbare⟩ := ih hinner
      rw [backwardSuffix_succ, hrest]
      exact ⟨rfl, hbare⟩
  | case2 chars hnone =>
      cases hstrip
      exact ⟨rfl, by rw [stripBackwards]; exact hnone⟩

theorem stripBackwards_append {element : List Char} (dimensions : Nat)
    (hbare : stripBackwards element = (0, element)) :
    stripBackwards (backwardSuffix dimensions ++ element) = (dimensions, element) := by
  induction dimensions with
  | zero => exact hbare
  | succ dimensions ih =>
      rw [backwardSuffix_succ]
      simp only [List.cons_append, stripBackwards, ih]

theorem stripBackwards_of_isBare {name : String} (hbare : IsBare name) :
    stripBackwards name.toList.reverse = (0, name.toList.reverse) := by
  rcases hstrip : stripBackwards name.toList.reverse with ⟨dimensions, element⟩
  simp only [IsBare, split, hstrip, Prod.mk.injEq] at hbare
  obtain ⟨rfl, hname⟩ := hbare
  rw [← hname, String.toList_ofList, List.reverse_reverse]

theorem isBare_of_not_mem {name : String} (hopen : '[' ∉ name.toList) : IsBare name := by
  rcases hstrip : stripBackwards name.toList.reverse with ⟨dimensions, element⟩
  obtain ⟨hchars, -⟩ := append_of_stripBackwards hstrip
  cases dimensions with
  | zero =>
      rw [backwardSuffix, List.replicate_zero, List.flatten_nil, List.nil_append] at hchars
      simp [IsBare, split, hstrip, ← hchars]
  | succ dimensions =>
      have hmem : '[' ∈ name.toList.reverse := by
        rw [hchars, backwardSuffix_succ]
        simp
      exact absurd (List.mem_reverse.mp hmem) hopen

theorem split_append {element : String} (hbare : IsBare element) (dimensions : Nat) :
    split (element ++ arraySuffix dimensions) = (dimensions, element) := by
  rw [split, String.toList_append, List.reverse_append, reverse_toList_arraySuffix,
    stripBackwards_append dimensions (stripBackwards_of_isBare hbare)]
  simp

theorem append_of_split {name element : String} {dimensions : Nat}
    (hsplit : split name = (dimensions, element)) :
    element ++ arraySuffix dimensions = name ∧ IsBare element := by
  rcases hstrip : stripBackwards name.toList.reverse with ⟨count, rest⟩
  simp only [split, hstrip, Prod.mk.injEq] at hsplit
  obtain ⟨rfl, rfl⟩ := hsplit
  obtain ⟨hchars, hrest⟩ := append_of_stripBackwards hstrip
  constructor
  · apply String.toList_injective
    rw [← List.reverse_inj, String.toList_append, List.reverse_append,
      reverse_toList_arraySuffix, hchars]
    simp
  · simp [IsBare, split, hrest]

theorem append_arraySuffix_inj {element element' : String} {n n' : Nat}
    (hbare : IsBare element) (hbare' : IsBare element') :
    element ++ arraySuffix n = element' ++ arraySuffix n' ↔
      n = n' ∧ element = element' := by
  constructor
  · intro heq
    have hsplit := split_append hbare n
    rw [heq, split_append hbare' n'] at hsplit
    cases hsplit
    exact ⟨rfl, rfl⟩
  · rintro ⟨rfl, rfl⟩
    rfl

theorem append_arraySuffix_eq_self_iff {element : String} {n : Nat} :
    element ++ arraySuffix n = element ↔ n = 0 := by
  constructor
  · intro heq
    have hlength := congrArg String.length heq
    simp [arraySuffix] at hlength
    omega
  · intro hn
    simp [hn]

theorem append_arraySuffix_succ_ne {element : String} {n : Nat}
    (hbare : IsBare element) : element ++ arraySuffix (n + 1) ≠ "" := by
  intro hempty
  have hsplit := split_append hbare (n + 1)
  rw [hempty] at hsplit
  cases hsplit

/-! ## One dimension more -/

theorem append_brackets (element : String) (n : Nat) :
    element ++ arraySuffix n ++ "[]" = element ++ arraySuffix (n + 1) := by
  apply String.toList_injective
  simp [arraySuffix, List.replicate_succ']

theorem append_brackets_inj {name name' : String} :
    name ++ "[]" = name' ++ "[]" ↔ name = name' := by
  constructor
  · intro heq
    have hlists := congrArg String.toList heq
    rw [String.toList_append, String.toList_append, List.append_cancel_right_eq] at hlists
    exact String.toList_injective hlists
  · rintro rfl
    rfl

theorem not_isBare_append_brackets (name : String) : ¬IsBare (name ++ "[]") := by
  obtain ⟨hname, hbare⟩ := append_of_split (rfl : split name = _)
  intro hbrackets
  rw [← hname, append_brackets, IsBare, split_append hbare] at hbrackets
  cases hbrackets

/-! ## Counting in a word -/

/-- The number that a word shows for so many suffixes. -/
def counted (suffixes : Nat) : Nat :=
  (Int32.ofNat suffixes).toNatClampNeg

theorem counted_eq_self_iff {suffixes : Nat} : counted suffixes = suffixes ↔ suffixes < 2 ^ 31 := by
  have hword : counted suffixes = ((suffixes : Int).bmod 4294967296).toNat := by
    rw [counted, Int32.toNatClampNeg, Int32.toInt_ofNat', Int32.size]
  rw [hword, Int.bmod_def]
  split <;> omega

theorem stripCounting_eq (count : Int32) (chars : List Char) :
    stripCounting count chars =
      (count + Int32.ofNat (stripBackwards chars).1, (stripBackwards chars).2) := by
  fun_induction stripCounting count chars with
  | case1 count rest ih =>
      rw [ih, stripBackwards, Int32.ofNat_add, Int32.add_assoc, Int32.add_comm 1]
      rfl
  | case2 count chars hnone =>
      rw [stripBackwards]
      · exact congrArg (·, chars) (Int32.add_zero count).symm
      · exact hnone

theorem ofTypeName?_append {element : String} (hbare : IsBare element) (suffixes : Nat) :
    FieldType.ofTypeName? (element ++ arraySuffix suffixes) =
      (element? element).map (FieldType.mk (counted suffixes)) := by
  rw [FieldType.ofTypeName?, stripCounting_eq, String.toList_append, List.reverse_append,
    reverse_toList_arraySuffix, stripBackwards_append suffixes (stripBackwards_of_isBare hbare),
    Int32.zero_add]
  dsimp only
  rw [List.reverse_reverse, String.ofList_toList, counted]

/-- What is read is what is spelled, as long as a word can count the suffixes. -/
theorem ofTypeName?_eq_spelled? {name : String} (hfew : (split name).1 < 2 ^ 31) :
    FieldType.ofTypeName? name = FieldType.spelled? name := by
  rcases hsplit : split name with ⟨suffixes, element⟩
  obtain ⟨hname, hbare⟩ := append_of_split hsplit
  rw [hsplit] at hfew
  rw [FieldType.spelled?, hsplit, ← hname, ofTypeName?_append hbare, counted_eq_self_iff.mpr hfew]

end TypeName

end Forwarding
