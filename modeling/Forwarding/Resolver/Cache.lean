import Forwarding.Types.Method

/-!
# Caches

A cache remembers one value per key, in the order in which the keys came.  It
never forgets.
-/

namespace Forwarding

structure Cache (κ ν : Type) where
  entries : List (κ × ν)
  deriving Repr

namespace Cache

variable {κ ν : Type} [DecidableEq κ]

def empty : Cache κ ν := ⟨[]⟩

def get? (c : Cache κ ν) (key : κ) : Option ν :=
  (c.entries.find? (·.1 = key)).map Prod.snd

def contains (c : Cache κ ν) (key : κ) : Bool :=
  (c.get? key).isSome

def size (c : Cache κ ν) : Nat :=
  c.entries.length

def isEmpty (c : Cache κ ν) : Bool :=
  c.entries.isEmpty

/-- Remembers a value in place of any other for its key. -/
def insert (c : Cache κ ν) (key : κ) (value : ν) : Cache κ ν :=
  ⟨c.entries.filter (·.1 ≠ key) ++ [(key, value)]⟩

@[simp] theorem get?_empty (key : κ) : (empty : Cache κ ν).get? key = none := rfl

theorem get?_insert (c : Cache κ ν) (key key' : κ) (value : ν) :
    (c.insert key value).get? key' =
      if key = key' then some value else c.get? key' := by
  simp only [get?, insert, List.find?_append]
  by_cases h : key = key'
  · subst h
    have hnone : (c.entries.filter (·.1 ≠ key)).find? (·.1 = key) = none := by
      rw [List.find?_eq_none]
      intro entry hentry
      simpa using (List.mem_filter.mp hentry).2
    rw [hnone]
    simp
  · have hsame : (c.entries.filter (·.1 ≠ key)).find? (·.1 = key') =
        c.entries.find? (·.1 = key') := by
      rw [List.find?_filter]
      congr 1
      funext entry
      by_cases he : entry.1 = key'
      · simp [he, Ne.symm h]
      · simp [he]
    rw [hsame]
    cases c.entries.find? (·.1 = key') <;> simp [h]

end Cache

/-- What a resolver remembers: where the stubs that it met lead. -/
abbrev StubCache (τ : Type) := Cache (StubKey τ) (Method τ)

end Forwarding
