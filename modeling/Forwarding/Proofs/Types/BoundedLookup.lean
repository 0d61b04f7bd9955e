import Forwarding.Proofs.Types.Hierarchy

/-!
# Exact outcomes of lookups

How a lookup ends is decided by the types on the way from where it begins up to the
root.  The nearest of them that has an answer gives it, if the limit lets the lookup come
that far.  If none has, the lookup fails exactly when there are more types on the way than
the limit allows.  So does the search for all ancestors, except that it never fails with a
limit of zero.
-/

namespace Forwarding

/-! ## First choices -/

/-- Whether an element is the first of a list that has a property. -/
def IsFirst {α : Type} (P : α → Prop) (xs : List α) (x : α) : Prop :=
  ∃ earlier later, xs = earlier ++ x :: later ∧ P x ∧ ∀ other ∈ earlier, ¬P other

theorem isFirst_of_find? {α : Type} {p : α → Bool} {xs : List α} {x : α}
    (hx : xs.find? p = some x) : IsFirst (fun y => p y = true) xs x := by
  obtain ⟨hp, earlier, later, rfl, hearlier⟩ := List.find?_eq_some_iff_append.mp hx
  exact ⟨earlier, later, rfl, hp, fun other hother => by simpa using hearlier other hother⟩

/-- Whether a method is the one that a type offers for a shape: the first of the shape that
is no stub, or the first of the shape if there are only stubs of it. -/
inductive Method.Offered {τ : Type} (shape : Shape τ) (methods : List (Method τ))
    (m : Method τ) : Prop
  | real (hfirst : IsFirst (fun m => m.shape = shape ∧ m.isStub = false) methods m)
  | stub (honly : ∀ other ∈ methods, other.shape = shape → other.isStub = true)
      (hfirst : IsFirst (fun m => m.shape = shape) methods m)

namespace TypeView

variable {τ β : Type} {v v' : TypeView τ} {ask ask' : τ → Option β} {failure failure' : Error}
  {limit limit' steps : Nat} {t u : τ}

theorem offered_of_declared? [DecidableEq τ] {shape : Shape τ} {m : Method τ}
    (hm : v.declared? shape t = some m) : Method.Offered shape (v.methods t) m := by
  unfold declared? Method.preferred? at hm
  rw [List.find?_filter, List.head?_filter] at hm
  cases hreal : (v.methods t).find?
      (fun m => decide (decide (m.shape = shape) = true ∧ (!m.isStub) = true)) with
  | some real =>
      rw [hreal] at hm
      cases hm
      exact .real (by simpa using isFirst_of_find? hreal)
  | none =>
      rw [hreal] at hm
      refine .stub ?_ (by simpa using isFirst_of_find? hm)
      simpa using hreal

theorem declared?_eq_none_iff [DecidableEq τ] {shape : Shape τ} :
    v.declared? shape t = none ↔ ∀ m ∈ v.methods t, m.shape ≠ shape := by
  constructor
  · intro hnone m hm hshape
    have hfits : m ∈ (v.methods t).filter (·.shape = shape) := by simp [hm, hshape]
    obtain ⟨found, hfound⟩ := Method.exists_preferred? hfits
    cases hnone.symm.trans hfound
  · intro hall
    have hnil : (v.methods t).filter (·.shape = shape) = [] := by simpa using hall
    unfold declared?
    rw [hnil]
    rfl

/-! ## The way up -/

/-- The type that stands so many steps above a type, if the way does not end before it.  It
ends in front of the root and where an ancestor is missing. -/
def above? (v : TypeView τ) : Nat → τ → Option τ
  | steps, t =>
      if v.isRoot t then none
      else
        match steps with
        | 0 => some t
        | steps + 1 => (v.ancestor? t).bind (v.above? steps)

/-- Whether there are at most so many types on the way up. -/
def EndsWithin (v : TypeView τ) (limit : Nat) (t : τ) : Prop :=
  v.above? limit t = none

instance (v : TypeView τ) (limit : Nat) (t : τ) : Decidable (v.EndsWithin limit t) :=
  inferInstanceAs (Decidable (v.above? limit t = none))

theorem above?_of_isRoot (hroot : v.isRoot t = true) : v.above? steps t = none := by
  unfold above?
  rw [if_pos hroot]

theorem above?_zero (hroot : ¬v.isRoot t = true) : v.above? 0 t = some t := by
  unfold above?
  rw [if_neg hroot]

theorem not_isRoot_of_above? (hu : v.above? steps t = some u) : ¬v.isRoot t = true := by
  intro hroot
  rw [above?_of_isRoot hroot] at hu
  cases hu

theorem above?_succ (hroot : ¬v.isRoot t = true) :
    v.above? (steps + 1) t = (v.ancestor? t).bind (v.above? steps) := by
  rw [above?, if_neg hroot]

theorem EndsWithin.mono (hends : v.EndsWithin limit t) (hle : limit ≤ limit') :
    v.EndsWithin limit' t := by
  unfold EndsWithin at hends ⊢
  induction limit generalizing limit' t with
  | zero =>
      by_cases hroot : v.isRoot t = true
      · exact above?_of_isRoot hroot
      · rw [above?_zero hroot] at hends
        cases hends
  | succ limit ih =>
      by_cases hroot : v.isRoot t = true
      · exact above?_of_isRoot hroot
      · obtain ⟨limit', rfl⟩ : ∃ n, limit' = n + 1 := ⟨limit' - 1, by omega⟩
        rw [above?_succ hroot] at hends ⊢
        cases hparent : v.ancestor? t with
        | none => rfl
        | some parent =>
            rw [hparent] at hends
            exact ih hends (by omega)

/-- A walk visits the first types of the way. -/
theorem getElem?_visited (v : TypeView τ) (limit : Nat) (t : τ) (i : Nat) :
    (v.visited limit t).1[i]? = if i < limit then v.above? i t else none := by
  induction limit generalizing t i with
  | zero =>
      unfold visited
      split <;> simp
  | succ limit ih =>
      unfold visited
      by_cases hroot : v.isRoot t = true
      · rw [if_pos hroot, above?_of_isRoot hroot]
        simp
      · rw [if_neg hroot]
        cases hparent : v.ancestor? t with
        | none =>
            cases i with
            | zero => simp [above?_zero hroot]
            | succ i => simp [above?_succ hroot, hparent]
        | some parent =>
            cases i with
            | zero => simp [above?_zero hroot]
            | succ i => simp [above?_succ hroot, hparent, ih]

theorem length_visited_le (v : TypeView τ) (limit : Nat) (t : τ) :
    (v.visited limit t).1.length ≤ limit := by
  have hbeyond := getElem?_visited v limit t limit
  rw [if_neg (Nat.lt_irrefl limit)] at hbeyond
  exact List.getElem?_eq_none_iff.mp hbeyond

/-- A walk is cut short if there are more types on the way than it may visit. -/
theorem visited_cut_iff : (v.visited limit t).2 = true ↔ ¬v.EndsWithin limit t := by
  unfold EndsWithin
  induction limit generalizing t with
  | zero =>
      unfold visited
      by_cases hroot : v.isRoot t = true
      · simp [hroot, above?_of_isRoot hroot]
      · simp [hroot, above?_zero hroot]
  | succ limit ih =>
      unfold visited
      by_cases hroot : v.isRoot t = true
      · simp [hroot, above?_of_isRoot hroot]
      · rw [if_neg hroot, above?_succ hroot]
        cases hparent : v.ancestor? t with
        | none => simp
        | some parent => simpa using ih

/-! ## Climbs -/

theorem firstUp_succ (hroot : ¬v.isRoot t = true) :
    v.firstUp ask failure (limit + 1) t =
      match ask t with
      | some answer => .ok (some answer)
      | none =>
          match v.ancestor? t with
          | some parent => v.firstUp ask failure limit parent
          | none => .ok none :=
  if_neg hroot

theorem firstUp_of_nearest {answer : β} (hlimit : steps < limit)
    (hu : v.above? steps t = some u) (hanswer : ask u = some answer)
    (hsilent : ∀ i < steps, ∀ w, v.above? i t = some w → ask w = none) :
    v.firstUp ask failure limit t = .ok (some answer) := by
  induction steps generalizing limit t with
  | zero =>
      obtain ⟨limit, rfl⟩ : ∃ n, limit = n + 1 := ⟨limit - 1, by omega⟩
      have hroot := not_isRoot_of_above? hu
      rw [above?_zero hroot] at hu
      cases hu
      rw [firstUp_succ hroot, hanswer]
  | succ steps ih =>
      obtain ⟨limit, rfl⟩ : ∃ n, limit = n + 1 := ⟨limit - 1, by omega⟩
      have hroot := not_isRoot_of_above? hu
      have hfirst := hsilent 0 (Nat.succ_pos _) t (above?_zero hroot)
      rw [above?_succ hroot] at hu
      obtain ⟨parent, hparent, hu⟩ := Option.bind_eq_some_iff.mp hu
      rw [firstUp_succ hroot, hfirst, hparent]
      refine ih (by omega) hu ?_
      intro i hi w hw
      apply hsilent (i + 1) (by omega) w
      rw [above?_succ hroot, hparent]
      exact hw

/-- A lookup without an answer fails if and only if the way is longer than the limit. -/
theorem firstUp_of_silent
    (hsilent : ∀ i < limit, ∀ w, v.above? i t = some w → ask w = none) :
    (v.EndsWithin limit t → v.firstUp ask failure limit t = .ok none) ∧
      (¬v.EndsWithin limit t → v.firstUp ask failure limit t = .error failure) := by
  have hnone : (v.visited limit t).1.findSome? ask = none := by
    apply List.findSome?_eq_none_iff.mpr
    intro w hw
    obtain ⟨i, hi⟩ := List.mem_iff_getElem?.mp hw
    rw [getElem?_visited] at hi
    split at hi
    next hlt => exact hsilent i hlt w hi
    next => cases hi
  rw [firstUp_eq_of_visited, hnone]
  constructor
  · intro hends
    have hwhole : ¬(v.visited limit t).2 = true := fun hcut => visited_cut_iff.mp hcut hends
    simp [hwhole]
  · intro hends
    simp [visited_cut_iff.mpr hends]

/-- A lookup that succeeds gives the same with a larger limit. -/
theorem firstUp_raised {found : Option β} (hle : limit ≤ limit')
    (hok : v.firstUp ask failure limit t = .ok found) :
    v.firstUp ask failure' limit' t = .ok found := by
  induction limit generalizing limit' t with
  | zero =>
      unfold firstUp at hok
      split at hok
      next hroot =>
        cases hok
        exact firstUp_of_isRoot hroot
      next => cases hok
  | succ limit ih =>
      obtain ⟨limit', rfl⟩ : ∃ n, limit' = n + 1 := ⟨limit' - 1, by omega⟩
      by_cases hroot : v.isRoot t = true
      · rw [firstUp_of_isRoot hroot] at hok ⊢
        exact hok
      · rw [firstUp_succ hroot] at hok ⊢
        cases hask : ask t with
        | some answer => rwa [hask] at hok
        | none =>
            rw [hask] at hok
            cases hparent : v.ancestor? t with
            | none => rwa [hparent] at hok
            | some parent =>
                rw [hparent] at hok
                exact ih (by omega) hok

/-- Whether two views know the same of some types.  The names are the same for all types. -/
structure AgreesOn (v v' : TypeView τ) (types : List τ) : Prop where
  name : ∀ u, v'.name u = v.name u
  ancestor? : ∀ u ∈ types, v'.ancestor? u = v.ancestor? u
  methods : ∀ u ∈ types, v'.methods u = v.methods u
  annotations : ∀ u ∈ types, v'.annotations u = v.annotations u

theorem AgreesOn.of_cons {types : List τ} (hagrees : v.AgreesOn v' (u :: types)) :
    v.AgreesOn v' types where
  name := hagrees.name
  ancestor? w hw := hagrees.ancestor? w (List.mem_cons_of_mem u hw)
  methods w hw := hagrees.methods w (List.mem_cons_of_mem u hw)
  annotations w hw := hagrees.annotations w (List.mem_cons_of_mem u hw)

theorem AgreesOn.isRoot_eq {types : List τ} (hagrees : v.AgreesOn v' types) (u : τ) :
    v'.isRoot u = v.isRoot u := by
  rw [isRoot, isRoot, hagrees.name u]

theorem visited_succ (hroot : ¬v.isRoot t = true) :
    (v.visited (limit + 1) t).1 =
      t :: ((v.ancestor? t).map fun parent => (v.visited limit parent).1).getD [] := by
  rw [visited, if_neg hroot]
  cases v.ancestor? t <;> rfl

/-- A lookup knows nothing but what it learns from the types that it visits. -/
theorem firstUp_of_agreesOn (hagrees : v.AgreesOn v' (v.visited limit t).1)
    (hask : ∀ u ∈ (v.visited limit t).1, ask' u = ask u) :
    v'.firstUp ask' failure limit t = v.firstUp ask failure limit t := by
  induction limit generalizing t with
  | zero =>
      unfold firstUp
      rw [hagrees.isRoot_eq]
  | succ limit ih =>
      by_cases hroot : v.isRoot t = true
      · rw [firstUp_of_isRoot hroot, firstUp_of_isRoot (hagrees.isRoot_eq t ▸ hroot)]
      · rw [visited_succ hroot] at hagrees hask
        rw [firstUp_succ hroot, firstUp_succ (hagrees.isRoot_eq t ▸ hroot),
          hask t List.mem_cons_self, hagrees.ancestor? t List.mem_cons_self]
        have hrest := hagrees.of_cons
        cases hparent : v.ancestor? t with
        | none => rfl
        | some parent =>
            simp only [hparent, Option.map_some, Option.getD_some, List.mem_cons] at hrest hask
            dsimp only
            rw [ih hrest fun u hu => hask u (Or.inr hu)]

/-! ## Lookups -/

/-- What lookups from a type have to give, one for each limit: `Has` tells which types have
an answer and `Answers` which answer that is. -/
structure LooksUp (lookup : TypeView τ → Nat → τ → Except Error (Option β))
    (Has : TypeView τ → τ → Prop) (Answers : TypeView τ → τ → β → Prop)
    (v : TypeView τ) (t : τ) : Prop where
  visits : ∀ limit, ∃ types : List τ, types.length ≤ limit ∧
    (∀ i u, types[i]? = some u → v.above? i t = some u) ∧
    ∀ v', v.AgreesOn v' types → lookup v' limit t = lookup v limit t
  nearest : ∀ limit i u, i < limit → v.above? i t = some u → Has v u →
    (∀ j < i, ∀ w, v.above? j t = some w → ¬Has v w) →
    ∃ answer, Answers v u answer ∧ lookup v limit t = .ok (some answer)
  absent : ∀ limit, (∀ i < limit, ∀ u, v.above? i t = some u → ¬Has v u) →
    v.EndsWithin limit t → lookup v limit t = .ok none
  tooDeep : ∀ limit, (∀ i < limit, ∀ u, v.above? i t = some u → ¬Has v u) →
    ¬v.EndsWithin limit t → lookup v limit t = .error (.hierarchyCycle (v.name t) limit)
  raised : ∀ limit limit' found, limit ≤ limit' → lookup v limit t = .ok found →
    lookup v limit' t = .ok found

theorem looksUp_of_firstUp {lookup : TypeView τ → Nat → τ → Except Error (Option β)}
    {Has : TypeView τ → τ → Prop} {Answers : TypeView τ → τ → β → Prop}
    (ask : TypeView τ → τ → Option β)
    (hlookup : ∀ v limit t, lookup v limit t =
      v.firstUp (ask v) (.hierarchyCycle (v.name t) limit) limit t)
    (hask : ∀ v v' types u, AgreesOn v v' types → u ∈ types → ask v' u = ask v u)
    (hnone : ∀ v u, ask v u = none ↔ ¬Has v u)
    (hsome : ∀ v u answer, ask v u = some answer → Answers v u answer)
    (v : TypeView τ) (t : τ) : LooksUp lookup Has Answers v t where
  visits limit := by
    refine ⟨(v.visited limit t).1, length_visited_le v limit t, ?_, ?_⟩
    · intro i u hi
      rw [getElem?_visited] at hi
      split at hi
      next => exact hi
      next => cases hi
    · intro v' hagrees
      rw [hlookup, hlookup, hagrees.name t]
      exact firstUp_of_agreesOn hagrees fun u hu => hask v v' _ u hagrees hu
  nearest limit i u hi hu hhas hearlier := by
    cases hanswer : ask v u with
    | none => exact absurd hhas ((hnone v u).mp hanswer)
    | some answer =>
        refine ⟨answer, hsome v u answer hanswer, ?_⟩
        rw [hlookup]
        refine firstUp_of_nearest hi hu hanswer ?_
        intro j hj w hw
        exact (hnone v w).mpr (hearlier j hj w hw)
  absent limit habsent hends := by
    rw [hlookup]
    exact (firstUp_of_silent fun i hi u hu => (hnone v u).mpr (habsent i hi u hu)).1 hends
  tooDeep limit habsent hends := by
    rw [hlookup]
    exact (firstUp_of_silent fun i hi u hu => (hnone v u).mpr (habsent i hi u hu)).2 hends
  raised limit limit' found hle hok := by
    rw [hlookup] at hok ⊢
    exact firstUp_raised hle hok

theorem Shape.eq_mk_iff {shape : Shape τ} {name : String} {parameters : List τ} :
    shape = ⟨name, parameters⟩ ↔ shape.name = name ∧ shape.parameters = parameters := by
  cases shape
  simp

theorem annotated?_eq_none_iff {kind : String} {annotations : List Annotation} :
    annotated? kind annotations = none ↔ ¬∃ a ∈ annotations, a.kind = kind := by
  simp [annotated?]

theorem isFirst_of_annotated? {kind : String} {annotations : List Annotation} {a : Annotation}
    (ha : annotated? kind annotations = some a) : IsFirst (·.kind = kind) annotations a := by
  simpa using isFirst_of_find? ha

/-- Lookups of methods and of annotations, on chains that end and on chains that do not. -/
theorem lookups_exact [DecidableEq τ] (v : TypeView τ) (t : τ) :
    (∀ name parameters,
      LooksUp (fun v limit t => v.findMethod limit t ⟨name, parameters⟩)
        (fun v u => ∃ m ∈ v.methods u, m.shape.name = name ∧ m.shape.parameters = parameters)
        (fun v u m => Method.Offered ⟨name, parameters⟩ (v.methods u) m) v t) ∧
    ∀ kind,
      LooksUp (fun v limit t => v.findAnnotated limit t kind)
        (fun v u => ∃ a ∈ v.annotations u, a.kind = kind)
        (fun v u a => IsFirst (·.kind = kind) (v.annotations u) a) v t := by
  constructor
  · intro name parameters
    refine looksUp_of_firstUp (fun v => v.declared? ⟨name, parameters⟩)
      (fun _ _ _ => rfl) ?_ ?_ ?_ v t
    · intro v v' types u hagrees hu
      unfold declared?
      rw [hagrees.methods u hu]
    · intro v u
      rw [declared?_eq_none_iff]
      simp [Shape.eq_mk_iff]
    · intro v u m hm
      exact offered_of_declared? hm
  · intro kind
    refine looksUp_of_firstUp (fun v u => annotated? kind (v.annotations u))
      (fun _ _ _ => rfl) ?_ ?_ ?_ v t
    · intro v v' types u hagrees hu
      rw [hagrees.annotations u hu]
    · intro v u
      exact annotated?_eq_none_iff
    · intro v u a ha
      exact isFirst_of_annotated? ha

/-- Two types, each the ancestor of the other, of which the second declares two methods of
one shape, the stub first. -/
def cyclic : TypeView Bool where
  name second := if second then "a.B" else "a.A"
  ancestor? second := some !second
  methods second :=
    if second then
      [⟨⟨⟨"copy", []⟩, false, ⟨0x1041⟩, []⟩, true⟩, ⟨⟨⟨"copy", []⟩, true, ⟨0x0001⟩, []⟩, true⟩]
    else []
  annotations _ := []

theorem lookups_exact_cyclic :
    cyclic.findMethod 1 false ⟨"copy", []⟩ = .error (.hierarchyCycle "a.A" 1) ∧
      (∃ m, Method.Offered ⟨"copy", []⟩ (cyclic.methods true) m ∧
        cyclic.findMethod 2 false ⟨"copy", []⟩ = .ok (some m)) ∧
      cyclic.findAnnotated 7 false "a.Kind" = .error (.hierarchyCycle "a.A" 7) := by
  obtain ⟨hmethods, hannotations⟩ := lookups_exact cyclic false
  have hcopy := hmethods "copy" []
  have hfirst : ∀ i < 1, ∀ u, cyclic.above? i false = some u →
      ¬∃ m ∈ cyclic.methods u, m.shape.name = "copy" ∧ m.shape.parameters = [] := by
    intro i hi u hu
    obtain rfl : i = 0 := by omega
    obtain rfl : false = u := Option.some.inj hu
    simp [cyclic]
  refine ⟨hcopy.tooDeep 1 hfirst (by decide), ?_, ?_⟩
  · exact hcopy.nearest 2 1 true (by decide) (by decide) ⟨_, List.mem_cons_self, rfl, rfl⟩ hfirst
  · exact (hannotations "a.Kind").tooDeep 7 (by simp [cyclic]) (by decide)

/-! ## All ancestors -/

theorem endsWithin_of_isRoot (hroot : v.isRoot t = true) : v.EndsWithin limit t :=
  above?_of_isRoot hroot

theorem ancestors_of_isRoot (hroot : v.isRoot t = true) : v.ancestors limit t = .ok [] := by
  unfold ancestors walk visited
  simp [hroot]

theorem ancestors_zero (v : TypeView τ) (t : τ) : v.ancestors 0 t = .ok [] := by
  unfold ancestors walk visited
  by_cases hroot : v.isRoot t = true <;> simp [hroot]

theorem exists_visited_eq_cons (hroot : ¬v.isRoot t = true) (hlimit : 0 < limit) :
    ∃ above, (v.visited limit t).1 = t :: above := by
  obtain ⟨limit, rfl⟩ : ∃ n, limit = n + 1 := ⟨limit - 1, by omega⟩
  exact ⟨_, visited_succ hroot⟩

/-- The ancestors are the types on the way behind its beginning. -/
theorem ancestors_of_endsWithin (hlimit : 0 < limit) (hends : v.EndsWithin limit t) :
    ∃ above, v.ancestors limit t = .ok above ∧ ∀ i, above[i]? = v.above? (i + 1) t := by
  by_cases hroot : v.isRoot t = true
  · refine ⟨[], ancestors_of_isRoot hroot, fun i => ?_⟩
    rw [above?_of_isRoot hroot]
    rfl
  · obtain ⟨above, habove⟩ := exists_visited_eq_cons hroot hlimit
    have hwhole : (v.visited limit t).2 = false :=
      Bool.eq_false_iff.mpr fun hcut => visited_cut_iff.mp hcut hends
    refine ⟨above, ?_, fun i => ?_⟩
    · rw [ancestors, walk_of_visited hwhole, habove]
    · have hi := getElem?_visited v limit t (i + 1)
      rw [habove, List.getElem?_cons_succ] at hi
      rw [hi]
      split
      next => rfl
      next hbeyond => exact (hends.mono (Nat.le_of_not_lt hbeyond)).symm

theorem ancestors_of_not_endsWithin (hlimit : 0 < limit) (hends : ¬v.EndsWithin limit t) :
    v.ancestors limit t = .error (.hierarchyCycle (v.name t) limit) := by
  have hroot : ¬v.isRoot t = true := fun hroot => hends (endsWithin_of_isRoot hroot)
  obtain ⟨above, habove⟩ := exists_visited_eq_cons hroot hlimit
  have hcut : (v.visited limit t).2 = true := visited_cut_iff.mpr hends
  rw [ancestors, walk]
  simp only [hcut, habove, if_true, tooDeep]

/-- With a limit that lets it begin, the search for all ancestors keeps to its limit as
lookups do.  With a limit of zero it never fails. -/
theorem ancestors_outcome [DecidableEq τ] (v : TypeView τ) (t : τ) :
    v.ancestors 0 t = .ok [] ∧
    ∀ limit, 0 < limit →
      (v.ancestors limit t = .error (.hierarchyCycle (v.name t) limit) ↔
        ¬v.EndsWithin limit t) ∧
      (∀ shape, (∀ u, ∀ m ∈ v.methods u, m.shape ≠ shape) → ∀ error,
        v.ancestors limit t = .error error ↔ v.findMethod limit t shape = .error error) ∧
      (v.EndsWithin limit t →
        ∃ above, v.ancestors limit t = .ok above ∧ ∀ i, above[i]? = v.above? (i + 1) t) := by
  refine ⟨ancestors_zero v t, fun limit hlimit => ⟨?_, ?_, ancestors_of_endsWithin hlimit⟩⟩
  · constructor
    · intro hfails hends
      obtain ⟨above, hok, -⟩ := ancestors_of_endsWithin hlimit hends
      cases hok.symm.trans hfails
    · exact ancestors_of_not_endsWithin hlimit
  · intro shape hnobody error
    have hsilent : ∀ i < limit, ∀ u, v.above? i t = some u → v.declared? shape u = none :=
      fun _ _ u _ => declared?_eq_none_iff.mpr (hnobody u)
    by_cases hends : v.EndsWithin limit t
    · obtain ⟨above, hok, -⟩ := ancestors_of_endsWithin hlimit hends
      rw [hok, findMethod, (firstUp_of_silent hsilent).1 hends]
      simp
    · rw [ancestors_of_not_endsWithin hlimit hends, findMethod, (firstUp_of_silent hsilent).2 hends]
      simp [tooDeep]

theorem ancestors_outcome_cyclic :
    cyclic.ancestors 3 false = .error (.hierarchyCycle "a.A" 3) ∧
      cyclic.findMethod 3 false ⟨"other", []⟩ = .error (.hierarchyCycle "a.A" 3) := by
  obtain ⟨-, houtcome⟩ := ancestors_outcome cyclic false
  obtain ⟨hfails, hlookup, -⟩ := houtcome 3 (by decide)
  have hnobody : ∀ u, ∀ m ∈ cyclic.methods u, m.shape ≠ ⟨"other", []⟩ := by decide
  have hcut := hfails.mpr (by decide)
  exact ⟨hcut, (hlookup ⟨"other", []⟩ hnobody _).mp hcut⟩

/-- A type without ancestors. -/
def loner : TypeView Unit where
  name _ := "a.B"
  ancestor? _ := none
  methods _ := []
  annotations _ := []

/-- A limit of zero is too small for any type but the root.  Lookups fail with it, and the
search for all ancestors does not. -/
theorem not_always_too_deep :
    ¬loner.EndsWithin 0 () ∧ loner.ancestors 0 () = .ok [] ∧
      (∀ shape, loner.findMethod 0 () shape = .error (.hierarchyCycle "a.B" 0)) ∧
      ¬∀ (v : TypeView Unit) (t : Unit) (limit : Nat),
        v.ancestors limit t = .error (.hierarchyCycle (v.name t) limit) ↔
          ¬v.EndsWithin limit t := by
  have hdeep : ¬loner.EndsWithin 0 () := by decide
  have hok := ancestors_zero loner ()
  refine ⟨hdeep, hok, fun shape => ?_, fun hall => ?_⟩
  · exact (firstUp_of_silent (fun i hi => absurd hi (Nat.not_lt_zero i))).2 hdeep
  · cases hok.symm.trans ((hall loner () 0).mpr hdeep)

end TypeView

end Forwarding
