import Forwarding.Registry.Define

/-!
# What holds of every registry

A registry is sound when its names lead to definitions of these names, its
definitions mention only definitions, ancestors come before their descendants
and the first root is still there.  Making a definition keeps a registry sound
as long as the definition mentions nothing that does not exist.
-/

namespace Forwarding

def Declaration.Mentions {τ : Type} (d : Declaration τ) (t : τ) : Prop :=
  t ∈ d.shape.parameters ∨ t = d.result

namespace Registry

def Knows (r : Registry) (t : TypeId) : Prop :=
  t.index < r.definitions.size

structure Coherent (r : Registry) : Prop where
  current : ∀ {name t}, r.get? name = some t →
    ∃ d, r.definition? t = some d ∧ d.name = name
  named : ∀ {t d}, r.definition? t = some d → ∃ u, r.get? d.name = some u
  ancestor_lt : ∀ {t d p}, r.definition? t = some d → d.ancestor? = some p →
    p.index < t.index
  mentions : ∀ {t d m u}, r.definition? t = some d → m ∈ d.methods →
    m.Mentions u → r.Knows u
  bytes : ∀ {name bytes}, r.bytesOf name = .ok bytes → ∃ t, r.get? name = some t
  nameless : r.get? "" = none

structure Sound (r : Registry) : Prop extends Coherent r where
  rooted : r.definition? r.root = some (.leaf rootTypeName .classType)

variable {r : Registry} {d : Definition} {t : TypeId} {name : String}

/-! ## Known types -/

theorem knows_iff : r.Knows t ↔ ∃ d, r.definition? t = some d := by
  unfold Knows definition?
  constructor
  · intro hknown
    exact ⟨_, Array.getElem?_eq_getElem hknown⟩
  · rintro ⟨d, hd⟩
    exact (Array.getElem?_eq_some_iff.mp hd).1

theorem definition?_eq_none_iff : r.definition? t = none ↔ ¬r.Knows t := by
  simp [definition?, Knows]

theorem not_knows_nextId : ¬r.Knows r.nextId := by
  simp [Knows, nextId]

theorem definition?_insert_of_some {e : Definition} (hd : r.definition? t = some d) :
    (r.insert e).definition? t = some d := by
  have hne : t ≠ r.nextId := by
    rintro rfl
    exact not_knows_nextId (knows_iff.mpr ⟨d, hd⟩)
  rw [definition?_insert, if_neg hne, hd]

theorem definition?_insert_eq_some_iff {e : Definition} :
    (r.insert d).definition? t = some e ↔
      (t = r.nextId ∧ d = e) ∨ r.definition? t = some e := by
  rw [definition?_insert]
  by_cases hnew : t = r.nextId
  · have hnone : r.definition? r.nextId = none :=
      definition?_eq_none_iff.mpr not_knows_nextId
    simp [hnew, hnone]
  · simp [hnew]

theorem knows_insert : (r.insert d).Knows t ↔ r.Knows t ∨ t = r.nextId := by
  obtain ⟨index⟩ := t
  simp only [Knows, insert, nextId, Array.size_push, TypeId.mk.injEq]
  omega

theorem nameOf_eq (hd : r.definition? t = some d) : r.nameOf t = d.name := by
  simp [nameOf, hd]

theorem nameOf_of_not_knows (hunknown : ¬r.Knows t) : r.nameOf t = "" := by
  simp [nameOf, definition?_eq_none_iff.mpr hunknown]

theorem ancestor?_eq_some_iff {p : TypeId} :
    r.ancestor? t = some p ↔ ∃ d, r.definition? t = some d ∧ d.ancestor? = some p := by
  simp [ancestor?, Option.bind_eq_some_iff]

namespace Coherent

theorem knows_of_get? (hcoherent : r.Coherent) (ht : r.get? name = some t) :
    r.Knows t := by
  obtain ⟨d, hd, -⟩ := hcoherent.current ht
  exact knows_iff.mpr ⟨d, hd⟩

theorem nameOf_of_get? (hcoherent : r.Coherent) (ht : r.get? name = some t) :
    r.nameOf t = name := by
  obtain ⟨d, hd, hname⟩ := hcoherent.current ht
  rw [nameOf_eq hd, hname]

theorem knows_of_ancestor? (hcoherent : r.Coherent) {p : TypeId}
    (hp : r.ancestor? t = some p) : r.Knows p := by
  obtain ⟨d, hd, hancestor⟩ := ancestor?_eq_some_iff.mp hp
  have hlt := hcoherent.ancestor_lt hd hancestor
  have hknown : r.Knows t := knows_iff.mpr ⟨d, hd⟩
  exact Nat.lt_trans hlt hknown

theorem bytesOf_of_get?_eq_none (hcoherent : r.Coherent)
    (hname : r.get? name = none) :
    r.bytesOf name = .error (.typeLoad (.noClassBytes name)) := by
  cases hbytes : r.bytesOf name with
  | ok bytes =>
      obtain ⟨t, ht⟩ := hcoherent.bytes hbytes
      rw [hname] at ht
      cases ht
  | error error =>
      unfold bytesOf at hbytes
      split at hbytes
      next => cases hbytes
      next => exact hbytes.symm ▸ rfl

end Coherent

theorem exists_get?_of_contains (hname : r.contains name = true) :
    ∃ t, r.get? name = some t := by
  rw [contains, Std.HashMap.contains_eq_isSome_getElem?, Option.isSome_iff_exists] at hname
  exact hname

theorem isSome_get?_insert :
    ((r.insert d).get? name).isSome ↔ d.name = name ∨ (r.get? name).isSome := by
  rw [get?_insert]
  by_cases hname : d.name = name <;> simp [hname]

/-! ## Making definitions -/

/-- What a definition needs so that the next one of a registry may be like it. -/
structure Admits (r : Registry) (d : Definition) : Prop where
  named : d.name ≠ ""
  ancestor : ∀ {p}, d.ancestor? = some p → r.Knows p
  mentions : ∀ {m u}, m ∈ d.methods → m.Mentions u → r.Knows u ∨ u = r.nextId

theorem Coherent.insert (hcoherent : r.Coherent) (hadmits : r.Admits d) :
    (r.insert d).Coherent where
  current := by
    intro name t ht
    rw [get?_insert] at ht
    split at ht
    next hname =>
      cases ht
      exact ⟨d, by simp [definition?_insert], hname⟩
    next =>
      obtain ⟨old, hold, hname⟩ := hcoherent.current ht
      exact ⟨old, definition?_insert_of_some hold, hname⟩
  named := by
    intro t e he
    rw [get?_insert]
    split
    next => exact ⟨_, rfl⟩
    next hname =>
      rw [definition?_insert] at he
      split at he
      next => cases he; exact absurd rfl hname
      next => exact hcoherent.named he
  ancestor_lt := by
    intro t e p he hp
    rw [definition?_insert] at he
    split at he
    next heq =>
      cases he
      subst heq
      exact hadmits.ancestor hp
    next => exact hcoherent.ancestor_lt he hp
  mentions := by
    intro t e m u he hm hu
    rw [knows_insert]
    rw [definition?_insert] at he
    split at he
    next =>
      cases he
      exact hadmits.mentions hm hu
    next => exact Or.inl (hcoherent.mentions he hm hu)
  bytes := by
    intro name bytes hbytes
    rw [bytesOf_insert] at hbytes
    split at hbytes
    next => cases hbytes
    next hname =>
      rw [get?_insert, if_neg hname]
      exact hcoherent.bytes hbytes
  nameless := by
    rw [get?_insert, if_neg hadmits.named]
    exact hcoherent.nameless

theorem Sound.insert (hsound : r.Sound) (hadmits : r.Admits d) : (r.insert d).Sound where
  toCoherent := hsound.toCoherent.insert hadmits
  rooted := definition?_insert_of_some hsound.rooted

theorem Sound.setBytes (hsound : r.Sound) (bytes : Array UInt8)
    (hname : r.get? name = some t) : (r.setBytes name bytes).Sound where
  current := hsound.current
  named := hsound.named
  ancestor_lt := hsound.ancestor_lt
  mentions := hsound.mentions
  nameless := hsound.nameless
  rooted := hsound.rooted
  bytes := by
    intro other b hb
    rw [bytesOf_setBytes] at hb
    split at hb
    next heq => exact ⟨t, heq ▸ hname⟩
    next => exact hsound.bytes hb

namespace Sound

theorem knows_root (hsound : r.Sound) : r.Knows r.root :=
  knows_iff.mpr ⟨_, hsound.rooted⟩

theorem nameOf_root (hsound : r.Sound) : r.nameOf r.root = rootTypeName :=
  nameOf_eq hsound.rooted

theorem ancestor?_root (hsound : r.Sound) : r.ancestor? r.root = none := by
  simp [ancestor?, hsound.rooted, Definition.leaf]

end Sound

/-! ## The first registry -/

theorem admits_leaf (flavor : Flavor) (hname : name ≠ "") :
    r.Admits (.leaf name flavor) where
  named := hname
  ancestor hp := by cases hp
  mentions hm := by cases hm

private theorem coherent_nothing (root : TypeId) : Coherent ⟨#[], ∅, ∅, root⟩ where
  current ht := by simp [get?] at ht
  named hd := by simp [definition?] at hd
  ancestor_lt hd := by simp [definition?] at hd
  mentions hd := by simp [definition?] at hd
  bytes hbytes := by simp [bytesOf] at hbytes
  nameless := by simp [get?]

theorem coherent_foldl_insert {definitions : List Definition}
    (hleaf : ∀ d ∈ definitions, ∃ name flavor, d = .leaf name flavor ∧ name ≠ "")
    (hcoherent : r.Coherent) : (definitions.foldl insert r).Coherent := by
  induction definitions generalizing r with
  | nil => exact hcoherent
  | cons d rest ih =>
      obtain ⟨name, flavor, rfl, hname⟩ := hleaf d List.mem_cons_self
      exact ih (fun e he => hleaf e (List.mem_cons_of_mem _ he))
        (hcoherent.insert (admits_leaf flavor hname))

theorem sound_initial : initial.Sound where
  toCoherent := by
    apply coherent_foldl_insert _ (coherent_nothing _)
    intro d hd
    rcases List.mem_append.mp hd with hbase | hother
    · obtain ⟨base, -, rfl⟩ := List.mem_map.mp hbase
      exact ⟨base.name, _, rfl, by cases base <;> decide⟩
    · simp only [List.mem_cons, List.not_mem_nil, or_false] at hother
      rcases hother with rfl | rfl
      · exact ⟨voidName, _, rfl, by decide⟩
      · exact ⟨rootTypeName, _, rfl, by decide⟩
  rooted := rfl

theorem isSome_get?_foldl_insert {definitions : List Definition} :
    ((definitions.foldl Registry.insert r).get? name).isSome ↔
      (∃ d ∈ definitions, d.name = name) ∨ (r.get? name).isSome := by
  induction definitions generalizing r with
  | nil => simp
  | cons e rest ih =>
      rw [List.foldl_cons, ih, isSome_get?_insert]
      simp only [List.mem_cons, exists_eq_or_imp, or_assoc, or_left_comm]

theorem isSome_get?_initial :
    (initial.get? name).isSome ↔ ∃ d ∈ builtin, d.name = name := by
  rw [initial, isSome_get?_foldl_insert]
  simp [get?]

end Registry

end Forwarding
