import Forwarding.Proofs.Registry.ClassBytes
import Forwarding.Proofs.Registry.Liveness
import Forwarding.Proofs.Registry.Runs

/-!
# The components of array types

An array type is made once, over the type that is then the current one of the
component's name, and is never made anew.  Its component therefore stays the
current type of that name until the name is defined again.
-/

namespace Forwarding

open Forwarding.TypeName

def Flavor.component? : Flavor → Option TypeId
  | .array component => some component
  | _ => none

namespace Registry

theorem isBare_of_definable {name : String} (hname : definable name = true) : IsBare name := by
  unfold definable FieldType.spelled? at hname
  rcases hsplit : split name with ⟨dimensions, element⟩
  simp only [hsplit] at hname
  cases htype : TypeName.element? element with
  | none => simp [htype] at hname
  | some e =>
      cases dimensions with
      | succ dimensions => simp [htype] at hname
      | zero =>
          obtain ⟨heq, hbare⟩ := append_of_split hsplit
          rw [arraySuffix_zero, String.append_empty] at heq
          exact heq ▸ hbare

/-- A class may be defined if its name is read as that of a class, as long as the suffixes can
be counted when it is read. -/
theorem definable_iff_of_few {name : String} (hfew : (split name).1 < 2 ^ 31) :
    definable name = true ↔
      ∃ className, FieldType.ofTypeName? name = some ⟨0, .object className⟩ := by
  rw [ofTypeName?_eq_spelled? hfew, definable]
  split
  next className hspelled => exact ⟨fun _ => ⟨className, hspelled⟩, fun _ => rfl⟩
  next hother =>
    constructor
    · intro hdefinable
      cases hdefinable
    · rintro ⟨className, hspelled⟩
      exact absurd hspelled (hother className)

variable {r r' : Registry} {name element : String} {a c t u : TypeId} {d : Definition} {n : Nat}

/-! ## Array types among the definitions -/

/-- Whether an array type was made over a type when this was the current one of a
name. -/
structure Covers (r : Registry) (a : TypeId) (name : String) (c : TypeId) : Prop where
  component : ∃ d, r.definition? c = some d ∧ d.name = name
  older : c.index < a.index
  between : ∀ {u d}, r.definition? u = some d → d.name = name →
    u.index ≤ c.index ∨ a.index < u.index

/-- How definitions lie above each other: those of a name in the order of their
making, with the current one on top, and an array type above the type that was
current when it was made.  Only names of classes have several definitions. -/
structure Layered (r : Registry) : Prop where
  current : ∀ {name t}, r.get? name = some t → ∃ d, r.definition? t = some d ∧ d.name = name
  newest : ∀ {name t u d}, r.get? name = some t → r.definition? u = some d → d.name = name →
    u.index ≤ t.index
  single : ∀ {t d}, r.definition? t = some d → definable d.name = true ∨ r.get? d.name = some t
  bare : ∀ {t d}, r.definition? t = some d → d.flavor.component? = none → IsBare d.name
  array : ∀ {a d c}, r.definition? a = some d → d.flavor.component? = some c →
    ∃ name, d = arrayDefinition (name ++ "[]") c r.root ∧ r.Covers a name c

/-- What may be defined next: an array type over a current type, or a type of
which there is none yet unless it is a class. -/
inductive Extensible (r : Registry) : Definition → Prop
  | array {name : String} {c : TypeId} : r.get? name = some c → r.get? (name ++ "[]") = none →
      Extensible r (arrayDefinition (name ++ "[]") c r.root)
  | element {d : Definition} : d.flavor.component? = none → IsBare d.name →
      (definable d.name = true ∨ r.get? d.name = none) → Extensible r d

theorem Layered.knows_of_get? (hlayered : r.Layered) (ht : r.get? name = some t) : r.Knows t := by
  obtain ⟨d, hd, -⟩ := hlayered.current ht
  exact knows_iff.mpr ⟨d, hd⟩

theorem Extensible.isBare (hd : r.Extensible d) (hflavor : d.flavor.component? = none) :
    IsBare d.name := by
  cases hd with
  | array _ _ => cases hflavor
  | element _ hbare _ => exact hbare

/-- What is defined next is not the second definition of a name unless that can name
a class. -/
theorem Extensible.definable_or_ne (hd : r.Extensible d) (ht : r.get? name = some t) :
    definable name = true ∨ d.name ≠ name := by
  by_cases hname : d.name = name
  · subst hname
    cases hd with
    | array _ hnone =>
        rw [arrayDefinition, hnone] at ht
        cases ht
    | element _ _ hfree =>
        refine Or.inl (hfree.resolve_right fun hnone => ?_)
        rw [hnone] at ht
        cases ht
  · exact Or.inr hname

theorem Covers.insert {e : Definition} (hcovers : r.Covers a name c) (hknown : r.Knows a) :
    (r.insert e).Covers a name c where
  component := by
    obtain ⟨d, hd, hname⟩ := hcovers.component
    exact ⟨d, definition?_insert_of_some hd, hname⟩
  older := hcovers.older
  between := by
    intro u d hd hname
    cases definition?_insert_eq_some_iff.mp hd with
    | inl hnew => exact Or.inr (hnew.1 ▸ hknown)
    | inr hold => exact hcovers.between hold hname

theorem Layered.covers_new (hlayered : r.Layered) (hd : r.Extensible d)
    (hflavor : d.flavor.component? = some c) :
    ∃ name, d = arrayDefinition (name ++ "[]") c r.root ∧
      (r.insert d).Covers r.nextId name c := by
  cases hd with
  | element hnoArray _ _ =>
      rw [hnoArray] at hflavor
      cases hflavor
  | @array name component hc _ =>
      cases hflavor
      refine ⟨name, rfl, ?_, hlayered.knows_of_get? hc, ?_⟩
      · obtain ⟨d, hd, hname⟩ := hlayered.current hc
        exact ⟨d, definition?_insert_of_some hd, hname⟩
      · intro u e he hname
        cases definition?_insert_eq_some_iff.mp he with
        | inr hold => exact Or.inl (hlayered.newest hc hold hname)
        | inl hnew =>
            -- The array type itself has a longer name than its component.
            have hlength := congrArg String.length (hnew.2 ▸ hname)
            simp [arrayDefinition] at hlength

theorem Layered.insert (hlayered : r.Layered) (hd : r.Extensible d) : (r.insert d).Layered where
  current := by
    intro name t ht
    rw [get?_insert] at ht
    split at ht
    next hname =>
      cases ht
      exact ⟨d, by simp [definition?_insert], hname⟩
    next =>
      obtain ⟨e, he, hname⟩ := hlayered.current ht
      exact ⟨e, definition?_insert_of_some he, hname⟩
  newest := by
    intro name t u e ht he hname
    rw [get?_insert] at ht
    have hcases := definition?_insert_eq_some_iff.mp he
    split at ht
    next hnew =>
      cases ht
      cases hcases with
      | inl hu => exact Nat.le_of_eq (congrArg TypeId.index hu.1)
      | inr hold => exact Nat.le_of_lt (knows_iff.mpr ⟨e, hold⟩)
    next hother =>
      cases hcases with
      | inl hu => exact absurd (hu.2 ▸ hname) hother
      | inr hold => exact hlayered.newest ht hold hname
  single := by
    intro t e he
    rw [get?_insert]
    cases definition?_insert_eq_some_iff.mp he with
    | inl hnew => exact Or.inr (by rw [hnew.2, if_pos rfl, hnew.1])
    | inr hold =>
        cases hlayered.single hold with
        | inl hdefinable => exact Or.inl hdefinable
        | inr hcurrent =>
            refine (hd.definable_or_ne hcurrent).imp_right fun hne => ?_
            rw [if_neg hne]
            exact hcurrent
  bare := by
    intro t e he hflavor
    cases definition?_insert_eq_some_iff.mp he with
    | inl hnew => exact hnew.2 ▸ hd.isBare (hnew.2 ▸ hflavor)
    | inr hold => exact hlayered.bare hold hflavor
  array := by
    intro a e c he hflavor
    cases definition?_insert_eq_some_iff.mp he with
    | inl hnew =>
        obtain ⟨hnewest, hsame⟩ := hnew
        subst hnewest hsame
        exact hlayered.covers_new hd hflavor
    | inr hold =>
        obtain ⟨name, harray, hcovers⟩ := hlayered.array hold hflavor
        exact ⟨name, harray, hcovers.insert (knows_iff.mpr ⟨e, hold⟩)⟩

theorem layered_foldl_insert {definitions : List Definition}
    (hleaf : ∀ d ∈ definitions, d.flavor.component? = none ∧ IsBare d.name)
    (hnames : (definitions.map Definition.name).Nodup)
    (hfree : ∀ d ∈ definitions, r.get? d.name = none) (hlayered : r.Layered) :
    (definitions.foldl Registry.insert r).Layered := by
  induction definitions generalizing r with
  | nil => exact hlayered
  | cons d rest ih =>
      rw [List.forall_mem_cons] at hleaf hfree
      rw [List.map_cons, List.nodup_cons] at hnames
      apply ih hleaf.2 hnames.2
      · intro e he
        have hne : d.name ≠ e.name := by
          intro heq
          exact hnames.1 (heq ▸ List.mem_map_of_mem he)
        rw [get?_insert, if_neg hne]
        exact hfree.2 e he
      · exact hlayered.insert (.element hleaf.1.1 hleaf.1.2 (Or.inr hfree.1))

theorem layered_initial : initial.Layered := by
  apply layered_foldl_insert
  · intro d hd
    rcases List.mem_append.mp hd with hbase | hother
    · obtain ⟨base, -, rfl⟩ := List.mem_map.mp hbase
      exact ⟨rfl, by cases base <;> decide +kernel⟩
    · simp only [List.mem_cons, List.not_mem_nil, or_false] at hother
      rcases hother with rfl | rfl
      · exact ⟨rfl, by decide +kernel⟩
      · exact ⟨rfl, by decide +kernel⟩
  · decide +kernel
  · intro d _
    simp [get?]
  · constructor <;> intros <;> simp_all [get?, definition?]

/-! ## Loading and defining -/

theorem keeps_make (hflavor : d.flavor.component? = none) (hname : definable d.name = true) :
    Keeps Layered (make d) := by
  have hinsert (r : Registry) (hlayered : r.Layered) : (r.insert d).Layered :=
    hlayered.insert (.element hflavor (isBare_of_definable hname) (Or.inl hname))
  exact keeps_get.bind fun _ => (keeps_modify hinsert).bind fun _ => keeps_pure _

theorem keeps_loadArray (hbare : IsBare element) (n : Nat) :
    Keeps Layered (loadArray element n) := by
  intro r hlayered
  induction n with
  | zero =>
      rw [loadArray_zero]
      split <;> exact hlayered
  | succ n ih =>
      rw [loadArray_succ]
      split
      next => exact hlayered
      next hnone =>
        split
        next => exact hlayered
        next =>
          split
          next c r₁ hinner =>
            rw [hinner] at ih
            obtain ⟨hc, hfresh⟩ := get?_of_loadArray hbare hinner
            have hnone₁ := (hfresh (n + 1) (Nat.lt_succ_self n)).trans hnone
            rw [← append_brackets] at hnone₁ ⊢
            exact Layered.insert ih (.array hc hnone₁)
          next error r₁ hinner =>
            rw [hinner] at ih
            exact ih

theorem keeps_load (name : String) : Keeps Layered (load name) := by
  obtain ⟨element, n, hbare, rfl⟩ := exists_bare name
  rw [load_eq_loadArray hbare]
  exact keeps_loadArray hbare n

theorem keeps_mention (own name : String) : Keeps Layered (mention own name) := by
  unfold mention
  split
  next => exact keeps_pure _
  next => exact (keeps_load name).map

theorem keeps_mentions (own : String) (names : List String) :
    Keeps Layered (mentions own names) := by
  induction names with
  | nil => exact keeps_pure _
  | cons name rest ih =>
      exact (keeps_mention own name).bind fun _ => ih.bind fun _ => keeps_pure _

theorem keeps_signature (own : String) (spec : MethodSpec) :
    Keeps Layered (signature own spec) :=
  (keeps_mentions own spec.parameters).bind fun _ =>
    (keeps_mention own spec.result).bind fun _ => keeps_pure _

theorem keeps_signatures (own : String) (specs : List MethodSpec) :
    Keeps Layered (signatures own specs) := by
  induction specs with
  | nil => exact keeps_pure _
  | cons spec rest ih =>
      exact (keeps_signature own spec).bind fun _ => ih.bind fun _ => keeps_pure _

theorem keeps_parentId (parent : Option String) : Keeps Layered (parentId parent) := by
  cases parent with
  | none => exact keeps_get.bind fun _ => keeps_pure _
  | some name => exact keeps_load name

theorem Layered.attachBytes (hlayered : r.Layered) (name : String)
    (bytes : Option (Array UInt8)) : (r.attachBytes name bytes).Layered := by
  cases bytes with
  | none => exact hlayered
  | some bytes => exact ⟨hlayered.current, hlayered.newest, hlayered.single, hlayered.bare,
      fun hd hflavor => by
        obtain ⟨name, harray, hcovers⟩ := hlayered.array hd hflavor
        exact ⟨name, harray, hcovers.component, hcovers.older, hcovers.between⟩⟩

theorem keeps_define (spec : ClassSpec) : Keeps Layered (define spec) := by
  unfold define
  split
  next => exact keeps_throw _
  next hname =>
    have hname : definable spec.name = true := by simpa using hname
    refine (keeps_parentId spec.parent).bind fun ancestor => ?_
    refine (keeps_signatures spec.name spec.methods).bind fun declared => ?_
    refine keeps_get.bind fun r => ?_
    have hflavor : (classDefinition spec ancestor declared r.nextId).flavor.component? = none := by
      unfold classDefinition
      cases spec.isInterface <;> rfl
    exact (keeps_make hflavor hname).bind fun _ =>
      (keeps_modify fun _ hlayered => hlayered.attachBytes _ _).bind fun _ => keeps_pure _

theorem keeps_defineClassFile (bytes : Array UInt8) : Keeps Layered (defineClassFile bytes) := by
  unfold defineClassFile
  split
  next => exact keeps_define _
  next => exact keeps_throw _

theorem keeps_registerBytes (name : String) (bytes : Array UInt8) :
    Keeps Layered (registerBytes name bytes) := by
  refine keeps_get.bind fun r => ?_
  split
  next => exact keeps_modify fun _ hlayered => hlayered.attachBytes name (some bytes)
  next => exact keeps_throw _

theorem Layered.apply (hlayered : r.Layered) (o : Operation) : (o.apply r).Layered := by
  cases o with
  | load name => exact keeps_load name r hlayered
  | define spec => exact keeps_define spec r hlayered
  | defineClassFile bytes => exact keeps_defineClassFile bytes r hlayered
  | registerBytes name bytes => exact keeps_registerBytes name bytes r hlayered

theorem Reachable.layered (hreachable : r.Reachable) : r.Layered := by
  induction hreachable with
  | refl => exact layered_initial
  | step o _ ih => exact ih.apply o

/-! ## The component of an array type -/

theorem Layered.exists_component (hlayered : r.Layered)
    (ha : r.get? (name ++ "[]") = some a) :
    ∃ c, r.definition? a = some (arrayDefinition (name ++ "[]") c r.root) ∧
      r.Covers a name c := by
  obtain ⟨d, hd, hname⟩ := hlayered.current ha
  cases hflavor : d.flavor.component? with
  | none =>
      have hbare := hlayered.bare hd hflavor
      rw [hname] at hbare
      exact absurd hbare (not_isBare_append_brackets name)
  | some c =>
      obtain ⟨inner, harray, hcovers⟩ := hlayered.array hd hflavor
      have hinner : inner = name := append_brackets_inj.mp (by rw [← hname, harray]; rfl)
      subst hinner
      exact ⟨c, by rw [hd, harray], hcovers⟩

/-- What is found from an array type by as many steps down. -/
def elementAt (r : Registry) : Nat → TypeId → Option TypeId
  | 0, t => some t
  | n + 1, t => ((r.definition? t).bind (·.flavor.component?)).bind (r.elementAt n)

theorem Layered.exists_elementAt (hlayered : r.Layered)
    (hd : r.definition? a = some d) (hname : d.name = element ++ arraySuffix n) :
    ∃ e, r.elementAt n a = some e ∧ r.nameOf e = element ∧ e.index ≤ a.index := by
  induction n generalizing a d with
  | zero =>
      rw [arraySuffix_zero, String.append_empty] at hname
      exact ⟨a, rfl, (nameOf_eq hd).trans hname, Nat.le_refl _⟩
  | succ n ih =>
      rw [← append_brackets] at hname
      cases hflavor : d.flavor.component? with
      | none =>
          have hnotBare := not_isBare_append_brackets (element ++ arraySuffix n)
          exact absurd (hname ▸ hlayered.bare hd hflavor) hnotBare
      | some c =>
          obtain ⟨inner, harray, hcovers⟩ := hlayered.array hd hflavor
          obtain ⟨e, he, hinner⟩ := hcovers.component
          have hcname : e.name = element ++ arraySuffix n := by
            rw [hinner]
            apply append_brackets_inj.mp
            rw [← hname, harray]
            rfl
          obtain ⟨bottom, hbottom, hbname, hle⟩ := ih he hcname
          refine ⟨bottom, ?_, hbname, Nat.le_trans hle (Nat.le_of_lt hcovers.older)⟩
          simp [elementAt, hd, hflavor, hbottom]

/-- An array can be loaded only over an element that has a definition. -/
theorem Layered.isSome_of_loadable (hlayered : r.Layered) (hsound : r.Sound)
    (hbare : IsBare element) (hloadable : r.Loadable (element ++ arraySuffix n)) :
    (r.get? element).isSome := by
  induction n with
  | zero =>
      rw [arraySuffix_zero, String.append_empty] at hloadable
      exact (loadable_zero hbare).mp hloadable
  | succ n ih =>
      cases (loadable_succ hbare).mp hloadable with
      | inr hinner => exact ih hinner.2
      | inl hcurrent =>
          obtain ⟨a, ha⟩ := Option.isSome_iff_exists.mp hcurrent
          rw [← append_brackets] at ha
          obtain ⟨c, -, hcovers⟩ := hlayered.exists_component ha
          obtain ⟨e, he, hname⟩ := hcovers.component
          obtain ⟨u, hu⟩ := hsound.named he
          rw [hname] at hu
          exact ih (loadable_of_isSome (Option.isSome_of_eq_some hu))

/-! ## A class that is defined again -/

end Registry

end Forwarding
