import Mathlib.Data.List.Forall2
import Forwarding.Proofs.Registry.Loading

/-!
# Defining types keeps a registry sound

A definition looks all its names up before it is made.  What it has found may
be new array types, and if it fails, these are all that it leaves behind.
-/

namespace Forwarding.Registry

variable {r r' : Registry} {name own : String} {t : TypeId}

/-! ## Operations that only load -/

/-- An outcome that leaves array types behind at most, with a property of the
registry that it leaves and of its value. -/
inductive Grown {α : Type} (r : Registry) (Q : Registry → α → Prop) :
    EStateM.Result Error Registry α → Prop
  | ok {a : α} {r' : Registry} : r.Extends r' → r'.Sound → Q r' a → Grown r Q (.ok a r')
  | error {error : Error} {r' : Registry} :
      r.Extends r' → r'.Sound → Grown r Q (.error error r')

section

variable {α β : Type} {Q : Registry → α → Prop} {Q' : Registry → β → Prop}
  {x : EStateM Error Registry α} {f : α → EStateM Error Registry β}

theorem Grown.pure {a : α} (hsound : r.Sound) (ha : Q r a) :
    Grown r Q ((Pure.pure a : EStateM Error Registry α) r) :=
  .ok (.refl r) hsound ha

theorem Grown.extends_ {outcome : EStateM.Result Error Registry α}
    (houtcome : Grown r Q outcome) : r.Extends (stateAfter outcome) := by
  cases houtcome with
  | ok hext _ _ => exact hext
  | error hext _ => exact hext

theorem Grown.sound {outcome : EStateM.Result Error Registry α}
    (houtcome : Grown r Q outcome) : (stateAfter outcome).Sound := by
  cases houtcome with
  | ok _ hsound _ => exact hsound
  | error _ hsound => exact hsound

theorem Grown.weaken {outcome : EStateM.Result Error Registry α} (hext : r.Extends r')
    (houtcome : Grown r' Q outcome) : Grown r Q outcome := by
  cases houtcome with
  | ok hext' hsound ha => exact .ok (hext.trans hext') hsound ha
  | error hext' hsound => exact .error (hext.trans hext') hsound

theorem Grown.imp {P Q : Registry → α → Prop} {outcome : EStateM.Result Error Registry α}
    (houtcome : Grown r P outcome) (himp : ∀ a r', r'.Sound → P r' a → Q r' a) :
    Grown r Q outcome := by
  cases houtcome with
  | ok hext hsound ha => exact .ok hext hsound (himp _ _ hsound ha)
  | error hext hsound => exact .error hext hsound

theorem Grown.bind (hx : Grown r Q (x r))
    (hf : ∀ a r', r.Extends r' → r'.Sound → Q r' a → Grown r' Q' (f a r')) :
    Grown r Q' ((x >>= f) r) := by
  cases hresult : x r with
  | ok a r' =>
      rw [hresult] at hx
      cases hx with
      | ok hext hsound ha =>
          rw [bind_of_ok hresult]
          exact (hf a r' hext hsound ha).weaken hext
  | error error r' =>
      rw [hresult] at hx
      cases hx with
      | error hext hsound =>
          rw [bind_eq_error.mpr (Or.inl hresult)]
          exact .error hext hsound

end

theorem grown_load (hsound : r.Sound) (name : String) :
    Grown r (fun r' t => r'.get? name = some t) (load name r) := by
  by_cases hname : r.Loadable name
  · obtain ⟨t, r', hload⟩ := hname
    obtain ⟨hext, hsound', ht⟩ := load_eq_ok hsound hload
    rw [hload]
    exact .ok hext hsound' ht
  · rw [load_of_not_loadable hname]
    exact .error (.refl r) hsound

/-! ## Signatures -/

/-- What a mention stands for. -/
def Mention.Names (own : String) (r : Registry) (name : String) : Mention → Prop
  | .self => name = own
  | .other t => name ≠ own ∧ r.get? name = some t

structure Signature.Resolves (own : String) (r : Registry) (spec : MethodSpec)
    (s : Signature) : Prop where
  spec_eq : s.spec = spec
  parameters : List.Forall₂ (Mention.Names own r) spec.parameters s.parameters
  result : Mention.Names own r spec.result s.result

theorem Mention.Names.mono {m : Mention} (hext : r.Extends r')
    (hnames : Mention.Names own r name m) : Mention.Names own r' name m := by
  cases m with
  | self => exact hnames
  | other t => exact ⟨hnames.1, hext.get? hnames.2⟩

theorem Signature.Resolves.mono {spec : MethodSpec} {s : Signature} (hext : r.Extends r')
    (hresolves : Signature.Resolves own r spec s) : Signature.Resolves own r' spec s where
  spec_eq := hresolves.spec_eq
  parameters := hresolves.parameters.imp fun _ _ => Mention.Names.mono hext
  result := hresolves.result.mono hext

theorem grown_mention (hsound : r.Sound) (own name : String) :
    Grown r (fun r' m => Mention.Names own r' name m) (mention own name r) := by
  unfold mention
  split
  next hself => exact .pure hsound hself
  next hself =>
    exact (grown_load hsound name).bind fun t r' _ hsound' ht => .pure hsound' ⟨hself, ht⟩

theorem grown_mentions (hsound : r.Sound) (own : String) (names : List String) :
    Grown r (fun r' ms => List.Forall₂ (Mention.Names own r') names ms)
      (mentions own names r) := by
  induction names generalizing r with
  | nil => exact .pure hsound .nil
  | cons name rest ih =>
      refine (grown_mention hsound own name).bind fun first r₁ _ hsound₁ hfirst => ?_
      refine (ih hsound₁).bind fun others r₂ hext hsound₂ hothers => ?_
      exact .pure hsound₂ (.cons (hfirst.mono hext) hothers)

theorem grown_signature (hsound : r.Sound) (own : String) (spec : MethodSpec) :
    Grown r (fun r' s => Signature.Resolves own r' spec s) (signature own spec r) := by
  refine (grown_mentions hsound own spec.parameters).bind fun ps r₁ _ hsound₁ hps => ?_
  refine (grown_mention hsound₁ own spec.result).bind fun result r₂ hext hsound₂ hresult => ?_
  exact .pure hsound₂ ⟨rfl, hps.imp fun _ _ => Mention.Names.mono hext, hresult⟩

theorem grown_signatures (hsound : r.Sound) (own : String) (specs : List MethodSpec) :
    Grown r (fun r' declared => List.Forall₂ (Signature.Resolves own r') specs declared)
      (signatures own specs r) := by
  induction specs generalizing r with
  | nil => exact .pure hsound .nil
  | cons spec rest ih =>
      refine (grown_signature hsound own spec).bind fun first r₁ _ hsound₁ hfirst => ?_
      refine (ih hsound₁).bind fun others r₂ hext hsound₂ hothers => ?_
      exact .pure hsound₂ (.cons (hfirst.mono hext) hothers)

theorem grown_parentId (hsound : r.Sound) (parent : Option String) :
    Grown r (fun r' t => r'.Knows t) (parentId parent r) := by
  cases parent with
  | none => exact .ok (.refl r) hsound hsound.knows_root
  | some name =>
      exact (grown_load hsound name).imp fun _ _ hsound' ht => hsound'.knows_of_get? ht

/-! ## Definitions -/

/-- The definition that a specification leads to once its names are found. -/
def classDefinition (spec : ClassSpec) (ancestor : TypeId)
    (declared : List Signature) (own : TypeId) : Definition where
  name := spec.name
  flavor := if spec.isInterface then .interfaceType else .classType
  ancestor? := some ancestor
  methods := declared.map (Signature.declare own)
  annotations := spec.annotations

theorem define_eq_ok {spec : ClassSpec} (hsound : r.Sound)
    (hdefine : define spec r = .ok t r') :
    definable spec.name = true ∧ ∃ ancestor declared r₁, r.Extends r₁ ∧ r₁.Sound ∧
      r₁.Knows ancestor ∧
      List.Forall₂ (Signature.Resolves spec.name r₁) spec.methods declared ∧
      t = r₁.nextId ∧
      r' = (r₁.insert (classDefinition spec ancestor declared r₁.nextId)).attachBytes
        spec.name spec.classBytes := by
  unfold define at hdefine
  split at hdefine
  next => cases hdefine
  next hname =>
    obtain ⟨ancestor, r₁, hparent, hrest⟩ := bind_eq_ok.mp hdefine
    obtain ⟨declared, r₂, hsignatures, hmake⟩ := bind_eq_ok.mp hrest
    have hgrown := grown_parentId hsound spec.parent
    rw [hparent] at hgrown
    cases hgrown with
    | ok hext₁ hsound₁ hancestor =>
        have hgrown := grown_signatures hsound₁ spec.name spec.methods
        rw [hsignatures] at hgrown
        cases hgrown with
        | ok hext₂ hsound₂ hdeclared =>
            cases hmake
            exact ⟨by simpa using hname, ancestor, declared, r₂, hext₁.trans hext₂,
              hsound₂, hext₂.knows hancestor, hdeclared, rfl, rfl⟩

theorem define_eq_error {spec : ClassSpec} {error : Error} (hsound : r.Sound)
    (hdefine : define spec r = .error error r') : r.Extends r' ∧ r'.Sound := by
  unfold define at hdefine
  split at hdefine
  next => cases hdefine; exact ⟨.refl r, hsound⟩
  next =>
    have hgrown : Grown r (fun _ _ => True)
        ((parentId spec.parent >>= fun _ => signatures spec.name spec.methods) r) :=
      (grown_parentId hsound spec.parent).bind fun _ r₁ _ hsound₁ _ =>
        (grown_signatures hsound₁ spec.name spec.methods).imp fun _ _ _ _ => trivial
    rcases bind_eq_error.mp hdefine with hparent | ⟨ancestor, r₁, hparent, hrest⟩
    · rw [bind_eq_error.mpr (Or.inl hparent)] at hgrown
      cases hgrown with
      | error hext hsound' => exact ⟨hext, hsound'⟩
    · rcases bind_eq_error.mp hrest with hsignatures | ⟨declared, r₂, -, hmake⟩
      · rw [bind_eq_error.mpr (Or.inr ⟨ancestor, r₁, hparent, hsignatures⟩)] at hgrown
        cases hgrown with
        | error hext hsound' => exact ⟨hext, hsound'⟩
      · cases hmake

/-! ## When definitions succeed -/

def Findable (own : String) (r : Registry) (name : String) : Prop :=
  name = own ∨ r.Loadable name

theorem Findable.mono (hext : r.Extends r') (hname : Findable own r name) :
    Findable own r' name :=
  hname.imp_right (hext.loadable name).mpr

theorem Grown.extends_of_ok {α : Type} {Q : Registry → α → Prop} {a : α}
    (houtcome : Grown r Q (.ok a r')) : r.Extends r' ∧ r'.Sound :=
  ⟨houtcome.extends_, houtcome.sound⟩

theorem mention_succeeds (hname : Findable own r name) :
    ∃ m r', mention own name r = .ok m r' := by
  unfold mention
  split
  next => exact ⟨.self, r, rfl⟩
  next hne =>
    obtain ⟨t, r', hload⟩ := hname.resolve_left hne
    exact ⟨.other t, r', map_eq_ok.mpr ⟨t, hload, rfl⟩⟩

theorem mentions_succeed {names : List String} (hsound : r.Sound)
    (hnames : ∀ name ∈ names, Findable own r name) :
    ∃ ms r', mentions own names r = .ok ms r' := by
  induction names generalizing r with
  | nil => exact ⟨[], r, rfl⟩
  | cons name rest ih =>
      rw [List.forall_mem_cons] at hnames
      obtain ⟨m, r₁, hm⟩ := mention_succeeds hnames.1
      have hgrown := grown_mention hsound own name
      rw [hm] at hgrown
      obtain ⟨hext, hsound₁⟩ := hgrown.extends_of_ok
      obtain ⟨ms, r₂, hms⟩ := ih hsound₁ fun name hname => (hnames.2 name hname).mono hext
      exact ⟨m :: ms, r₂, bind_eq_ok.mpr ⟨m, r₁, hm, bind_eq_ok.mpr ⟨ms, r₂, hms, rfl⟩⟩⟩

theorem signature_succeeds {spec : MethodSpec} (hsound : r.Sound)
    (hnames : ∀ name ∈ spec.result :: spec.parameters, Findable own r name) :
    ∃ s r', signature own spec r = .ok s r' := by
  rw [List.forall_mem_cons] at hnames
  obtain ⟨ms, r₁, hms⟩ := mentions_succeed hsound hnames.2
  have hgrown := grown_mentions hsound own spec.parameters
  rw [hms] at hgrown
  obtain ⟨hext, -⟩ := hgrown.extends_of_ok
  obtain ⟨m, r₂, hm⟩ := mention_succeeds (hnames.1.mono hext)
  exact ⟨_, r₂, bind_eq_ok.mpr ⟨ms, r₁, hms, bind_eq_ok.mpr ⟨m, r₂, hm, rfl⟩⟩⟩

theorem signatures_succeed {specs : List MethodSpec} (hsound : r.Sound)
    (hnames : ∀ spec ∈ specs, ∀ name ∈ spec.result :: spec.parameters,
      Findable own r name) :
    ∃ declared r', signatures own specs r = .ok declared r' := by
  induction specs generalizing r with
  | nil => exact ⟨[], r, rfl⟩
  | cons spec rest ih =>
      rw [List.forall_mem_cons] at hnames
      obtain ⟨s, r₁, hs⟩ := signature_succeeds hsound hnames.1
      have hgrown := grown_signature hsound own spec
      rw [hs] at hgrown
      obtain ⟨hext, hsound₁⟩ := hgrown.extends_of_ok
      obtain ⟨others, r₂, hothers⟩ := ih hsound₁ fun spec hspec name hname =>
        (hnames.2 spec hspec name hname).mono hext
      exact ⟨s :: others, r₂,
        bind_eq_ok.mpr ⟨s, r₁, hs, bind_eq_ok.mpr ⟨others, r₂, hothers, rfl⟩⟩⟩

/-- A definition succeeds if its name is that of a class and all the names that it
mentions can be found. -/
theorem define_succeeds {spec : ClassSpec} (hsound : r.Sound)
    (hname : definable spec.name = true) (hparent : ∀ name ∈ spec.parent, r.Loadable name)
    (hnames : ∀ method ∈ spec.methods, ∀ name ∈ method.result :: method.parameters,
      Findable spec.name r name) :
    ∃ t r', define spec r = .ok t r' := by
  have hancestor : ∃ ancestor r₁, parentId spec.parent r = .ok ancestor r₁ := by
    cases hspec : spec.parent with
    | none => exact ⟨r.root, r, rfl⟩
    | some name => exact hparent name hspec
  obtain ⟨ancestor, r₁, hancestor⟩ := hancestor
  have hgrown := grown_parentId hsound spec.parent
  rw [hancestor] at hgrown
  obtain ⟨hext, hsound₁⟩ := hgrown.extends_of_ok
  obtain ⟨declared, r₂, hdeclared⟩ := signatures_succeed hsound₁ fun method hmethod name hname =>
    (hnames method hmethod name hname).mono hext
  unfold define
  rw [if_neg (by simp [hname])]
  exact ⟨_, _, bind_eq_ok.mpr
    ⟨ancestor, r₁, hancestor, bind_eq_ok.mpr ⟨declared, r₂, hdeclared, rfl⟩⟩⟩

theorem loadable_builtin {name : String} (hname : name ∈ builtin.map Definition.name) :
    initial.Loadable name :=
  loadable_of_isSome (isSome_get?_initial.mpr (List.mem_map.mp hname))

/-- A definition succeeds in the first registry if all the names that it mentions are
built in. -/
theorem define_succeeds_initially {spec : ClassSpec} (hname : definable spec.name = true)
    (hbuiltin : ∀ name ∈ spec.parent.toList ++
        spec.methods.flatMap fun method => method.result :: method.parameters,
      name ∈ builtin.map Definition.name) :
    ∃ t r', define spec initial = .ok t r' := by
  apply define_succeeds sound_initial hname
  · intro name hmem
    exact loadable_builtin (hbuiltin name (List.mem_append_left _ (Option.mem_toList.mpr hmem)))
  · intro method hmethod name hmem
    have hmentioned : name ∈ spec.methods.flatMap fun method =>
        method.result :: method.parameters := List.mem_flatMap.mpr ⟨method, hmethod, hmem⟩
    exact Or.inr (loadable_builtin (hbuiltin name (List.mem_append_right _ hmentioned)))

theorem exists_of_forall₂ {α β : Type} {R : α → β → Prop} {as : List α} {bs : List β}
    (hall : List.Forall₂ R as bs) {b : β} (hb : b ∈ bs) : ∃ a, R a b := by
  induction hall with
  | nil => cases hb
  | cons hhead _ ih =>
      rcases List.mem_cons.mp hb with rfl | hrest
      · exact ⟨_, hhead⟩
      · exact ih hrest

theorem forall₂_trans {α β γ : Type} {R : α → β → Prop} {S : β → γ → Prop} {T : α → γ → Prop}
    {as : List α} {bs : List β} {cs : List γ} (hfirst : List.Forall₂ R as bs)
    (hsecond : List.Forall₂ S bs cs) (htrans : ∀ a b c, R a b → S b c → T a c) :
    List.Forall₂ T as cs := by
  induction hfirst generalizing cs with
  | nil =>
      cases hsecond
      exact .nil
  | cons hhead _ ih =>
      cases hsecond with
      | cons hhead' hrest => exact .cons (htrans _ _ _ hhead hhead') (ih hrest)

theorem Mention.Names.findable {m : Mention} (hnames : Mention.Names own r name m) :
    Findable own r name := by
  cases m with
  | self => exact Or.inl hnames
  | other t => exact Or.inr (loadable_of_isSome (Option.isSome_of_eq_some hnames.2))

/-- A definition that succeeds has found all the names that it mentions. -/
theorem findable_of_define {spec : ClassSpec} {method : MethodSpec} (hsound : r.Sound)
    (hdefine : define spec r = .ok t r') (hmethod : method ∈ spec.methods)
    (hname : name ∈ method.result :: method.parameters) : Findable spec.name r name := by
  obtain ⟨-, ancestor, declared, r₁, hext, -, -, hdeclared, -, -⟩ := define_eq_ok hsound hdefine
  obtain ⟨s, hresolves⟩ := exists_of_forall₂ (List.Forall₂.flip hdeclared) hmethod
  have hnames : ∃ m, Mention.Names spec.name r₁ name m := by
    cases List.mem_cons.mp hname with
    | inl hresult => exact ⟨s.result, hresult ▸ hresolves.result⟩
    | inr hparameter =>
        exact exists_of_forall₂ (List.Forall₂.flip hresolves.parameters) hparameter
  obtain ⟨m, hm⟩ := hnames
  exact hm.findable.imp_right (hext.loadable name).mp

/-! ## Soundness -/

theorem ne_empty_of_definable (hname : definable name = true) : name ≠ "" := by
  rintro rfl
  cases hname

theorem Mention.Names.knows {m : Mention} (hcoherent : r.Coherent)
    (hnames : Mention.Names own r name m) :
    r.Knows (m.resolve r.nextId) ∨ m.resolve r.nextId = r.nextId := by
  cases m with
  | self => exact Or.inr rfl
  | other t => exact Or.inl (hcoherent.knows_of_get? hnames.2)

theorem Signature.Resolves.knows {spec : MethodSpec} {s : Signature} {u : TypeId}
    (hcoherent : r.Coherent) (hresolves : Signature.Resolves own r spec s)
    (hu : (s.declare r.nextId).Mentions u) : r.Knows u ∨ u = r.nextId := by
  rcases hu with hparameter | rfl
  · obtain ⟨m, hm, rfl⟩ := List.mem_map.mp hparameter
    obtain ⟨name, hname⟩ := exists_of_forall₂ hresolves.parameters hm
    exact hname.knows hcoherent
  · exact hresolves.result.knows hcoherent

theorem admits_classDefinition {spec : ClassSpec} {ancestor : TypeId}
    {declared : List Signature} (hcoherent : r.Coherent)
    (hname : definable spec.name = true) (hancestor : r.Knows ancestor)
    (hdeclared : List.Forall₂ (Signature.Resolves spec.name r) spec.methods declared) :
    r.Admits (classDefinition spec ancestor declared r.nextId) where
  named := ne_empty_of_definable hname
  ancestor hp := by cases hp; exact hancestor
  mentions := by
    intro m u hm hu
    obtain ⟨s, hs, rfl⟩ := List.mem_map.mp hm
    obtain ⟨method, hresolves⟩ := exists_of_forall₂ hdeclared hs
    exact hresolves.knows hcoherent hu

theorem sound_define {spec : ClassSpec} (hsound : r.Sound) :
    (stateAfter (define spec r)).Sound := by
  cases hdefine : define spec r with
  | error error r' => exact (define_eq_error hsound hdefine).2
  | ok t r' =>
      obtain ⟨hname, ancestor, declared, r₁, -, hsound₁, hancestor, hdeclared, -, rfl⟩ :=
        define_eq_ok hsound hdefine
      have hinsert := hsound₁.insert
        (admits_classDefinition hsound₁.toCoherent hname hancestor hdeclared)
      cases hbytes : spec.classBytes with
      | none => exact hinsert
      | some bytes => exact hinsert.setBytes bytes ((get?_insert ..).trans (if_pos rfl))

/-! ## Names after a definition -/

theorem get?_attachBytes {bytes : Option (Array UInt8)} (other : String) :
    (r.attachBytes name bytes).get? other = r.get? other := by
  cases bytes <;> rfl

theorem definition?_attachBytes {bytes : Option (Array UInt8)} :
    (r.attachBytes name bytes).definition? t = r.definition? t := by
  cases bytes <;> rfl

theorem definition?_nextId (d : Definition) (bytes : Option (Array UInt8)) :
    ((r.insert d).attachBytes name bytes).definition? r.nextId = some d := by
  rw [definition?_attachBytes, definition?_insert, if_pos rfl]

theorem get?_of_define {spec : ClassSpec} (hsound : r.Sound)
    (hdefine : define spec r = .ok t r') : r'.get? spec.name = some t := by
  obtain ⟨-, ancestor, declared, r₁, -, -, -, -, rfl, rfl⟩ := define_eq_ok hsound hdefine
  rw [get?_attachBytes]
  exact (get?_insert ..).trans (if_pos rfl)

/-- Of the names without `[]` suffixes a definition adds only its own. -/
theorem loadable_of_define {spec : ClassSpec} (hsound : r.Sound)
    (hdefine : define spec r = .ok t r') (hbare : TypeName.IsBare name)
    (hother : spec.name ≠ name) : r'.Loadable name ↔ r.Loadable name := by
  obtain ⟨-, ancestor, declared, r₁, hext, -, -, -, rfl, rfl⟩ := define_eq_ok hsound hdefine
  rw [← hext.loadable, loadable_zero hbare, loadable_zero hbare, get?_attachBytes,
    get?_insert]
  exact iff_of_eq (congrArg (fun found : Option TypeId => found.isSome = true)
    (if_neg hother))

end Forwarding.Registry
