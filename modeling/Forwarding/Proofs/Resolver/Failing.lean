import Forwarding.Proofs.Delegation
import Forwarding.Proofs.Session.Growth
import Forwarding.Proofs.Types.Hierarchy

/-!
# What following a stub can fail with

A hop fails with what the provider itself fails with or with one of a few causes.  None
of them wraps another error, and none says that there are too many stubs on the way: only
the limit on their number does, and it says nothing else.
-/

namespace Forwarding

/-- Whether an error does not wrap another one. -/
def Error.IsPlain (error : Error) : Prop :=
  ∀ method source, error ≠ .stubResolution method source

/-- Whether an error says that a type or its bytes cannot be loaded. -/
def Error.IsTypeLoad (error : Error) : Prop :=
  ∃ problem, error = .typeLoad problem

theorem Error.IsTypeLoad.isPlain {error : Error} (hload : error.IsTypeLoad) :
    error.IsPlain := by
  obtain ⟨problem, rfl⟩ := hload
  exact fun _ _ => Error.noConfusion

theorem Error.IsTypeLoad.ne_stubChainLimit {error : Error} (hload : error.IsTypeLoad)
    (limit : Nat) : error ≠ .stubChainLimit limit := by
  obtain ⟨problem, rfl⟩ := hload
  exact Error.noConfusion

theorem Error.IsUnreadable.isPlain {error : Error} (hunreadable : error.IsUnreadable) :
    error.IsPlain := by
  cases hunreadable <;> exact fun _ _ => Error.noConfusion

theorem Error.IsUnreadable.ne_stubChainLimit {error : Error} (hunreadable : error.IsUnreadable)
    (limit : Nat) : error ≠ .stubChainLimit limit := by
  cases hunreadable <;> exact Error.noConfusion

theorem Delegation.SearchFailure.isPlain {name : String} {count : Nat} {error : Error}
    (hfailure : SearchFailure name count error) : error.IsPlain := by
  cases hfailure with
  | unreadable hunreadable => exact hunreadable.isPlain
  | _ => exact fun _ _ => Error.noConfusion

theorem Delegation.SearchFailure.ne_stubChainLimit {name : String} {count : Nat}
    {error : Error} (hfailure : SearchFailure name count error) (limit : Nat) :
    error ≠ .stubChainLimit limit := by
  cases hfailure with
  | unreadable hunreadable => exact hunreadable.ne_stubChainLimit limit
  | _ => exact Error.noConfusion

namespace Provider

variable {σ τ α : Type} {p : Provider σ τ} {Own : Error → Prop}

/-- What a hop can fail with if the provider itself fails only with certain errors. -/
inductive HopFailure (Own : Error → Prop) : Error → Prop
  | own {error : Error} : Own error → HopFailure Own error
  | search {name : String} {count : Nat} {error : Error} :
      Delegation.SearchFailure name count error → HopFailure Own error
  | descriptor (failure : Descriptor.Failure) : HopFailure Own (.malformedDescriptor failure)
  | tooDeep (typeName : String) (limit : Nat) : HopFailure Own (.hierarchyCycle typeName limit)
  | missing (owner name : String) : HopFailure Own (.targetNotFound owner name)

theorem HopFailure.isPlain {error : Error} (hfailure : HopFailure Error.IsPlain error) :
    error.IsPlain := by
  cases hfailure with
  | own hplain => exact hplain
  | search hsearch => exact hsearch.isPlain
  | _ => exact fun _ _ => Error.noConfusion

theorem HopFailure.ne_stubChainLimit {error : Error}
    (hfailure : HopFailure Error.IsTypeLoad error) (limit : Nat) :
    error ≠ .stubChainLimit limit := by
  cases hfailure with
  | own hload => exact hload.ne_stubChainLimit limit
  | search hsearch => exact hsearch.ne_stubChainLimit limit
  | _ => exact Error.noConfusion

theorem failsOnly_lift {Q : Error → Prop} {outcome : Except Error α}
    (houtcome : ∀ error, outcome = .error error → Q error) :
    FailsOnly Q (lift outcome : EStateM Error σ α) := by
  cases outcome with
  | ok value => exact failsOnly_pure value
  | error error => exact failsOnly_throw (houtcome error rfl)

theorem failsOnly_ofDescriptor (outcome : Except Descriptor.Failure α) :
    FailsOnly (HopFailure Own) (lift (Error.ofDescriptor outcome) : EStateM Error σ α) := by
  cases outcome with
  | ok value => exact failsOnly_pure value
  | error failure => exact failsOnly_throw (.descriptor failure)

theorem failsOnly_loadAll (hload : ∀ name, FailsOnly Own (p.load name)) (names : List String) :
    FailsOnly Own (p.loadAll names) := by
  induction names with
  | nil => exact failsOnly_pure []
  | cons name rest ih =>
      exact (hload name).bind fun first => ih.bind fun others => failsOnly_pure _

variable [DecidableEq τ]

theorem failsOnly_callee (hload : ∀ name, FailsOnly Own (p.load name)) (depth : Nat)
    (d : Delegation) : FailsOnly (HopFailure Own) (p.callee depth d) := by
  refine (failsOnly_ofDescriptor _).bind fun descriptor => ?_
  refine ((hload _).imp fun _ => .own).bind fun owner => ?_
  refine ((failsOnly_loadAll hload _).imp fun _ => .own).bind fun parameters => ?_
  refine failsOnly_get.bind fun world => ?_
  refine (failsOnly_lift fun error hfind => ?_).bind fun found => ?_
  · rw [TypeView.eq_failure_of_firstUp hfind]
    exact .tooDeep _ _
  · cases found with
    | some m => exact failsOnly_pure m
    | none => exact failsOnly_throw (.missing _ _)

theorem failsOnly_target (hload : ∀ name, FailsOnly Own (p.load name))
    (hbytes : ∀ world t error, p.classBytes world t = .error error → Own error) (depth : Nat)
    (stub : Method τ) : FailsOnly (HopFailure Own) (p.target depth stub) := by
  refine failsOnly_get.bind fun world => ?_
  refine (failsOnly_lift fun error hnone => ?_).bind fun bytes => ?_
  · exact .own (hbytes world stub.owner error hnone)
  refine (failsOnly_lift fun _ hfind => ?_).bind fun d => failsOnly_callee hload depth d
  exact .search (Delegation.searchFailure_of_find hfind)

/-- Whether what a provider fails with itself does not wrap another error. -/
structure Plain (p : Provider σ τ) : Prop where
  load : ∀ name, FailsOnly Error.IsPlain (p.load name)
  classBytes : ∀ world t error, p.classBytes world t = .error error → error.IsPlain

theorem Plain.follow (hp : p.Plain) (limits : Limits) (hops : Nat) (stub : Method τ) :
    FailsOnly Error.IsPlain (p.follow limits hops stub) := by
  induction hops generalizing stub with
  | zero => exact failsOnly_throw fun _ _ => Error.noConfusion
  | succ hops ih =>
      have hhop := failsOnly_target hp.load hp.classBytes limits.hierarchyDepth stub
      refine (hhop.imp fun _ => HopFailure.isPlain).bind fun next => ?_
      split
      next => exact ih next
      next => exact failsOnly_pure next

end Provider

theorem Registry.failsOnly_load (name : String) :
    FailsOnly Error.IsTypeLoad (Registry.load name) := by
  intro error r r' hload
  by_cases hname : r.Loadable name
  · obtain ⟨t, r₁, hloads⟩ := hname
    rw [hloads] at hload
    cases hload
  · obtain ⟨problem, hproblem⟩ :=
      exists_missing_eq (TypeName.split name).2 (TypeName.split name).1
    rw [load_of_not_loadable hname, hproblem] at hload
    cases hload
    exact ⟨problem, rfl⟩

namespace World

theorem failsOnly_onRegistry {α : Type} {P : Error → Prop} {operation : EStateM Error Registry α}
    (hoperation : FailsOnly P operation) : FailsOnly P (onRegistry operation) := by
  intro error w w' hfails
  unfold onRegistry at hfails
  split at hfails
  next => cases hfails
  next registry herror =>
    cases hfails
    exact hoperation error w.registry registry herror

theorem failsOnly_load (name : String) : FailsOnly Error.IsTypeLoad (World.load name) :=
  (failsOnly_onRegistry (Registry.failsOnly_load name)).map

theorem isTypeLoad_of_classBytes {w : World} {t : TypeRef} {error : Error}
    (hbytes : provider.classBytes w t = .error error) : error.IsTypeLoad := by
  change w.registry.bytesOf (w.nameOf t) = .error error at hbytes
  unfold Registry.bytesOf at hbytes
  split at hbytes
  next => cases hbytes
  next =>
    cases hbytes
    exact ⟨_, rfl⟩

theorem plain_provider : provider.Plain where
  load name := (failsOnly_load name).imp fun _ => Error.IsTypeLoad.isPlain
  classBytes _ _ _ hbytes := (isTypeLoad_of_classBytes hbytes).isPlain

end World

end Forwarding
