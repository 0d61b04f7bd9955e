import Forwarding.Proofs.Bytes.Operations

/-!
# Cursors with a machine word

Here the position, the number of bytes and all arithmetic on them are words of 64 bits, and
nothing but the checks keeps a position within the bytes.  As long as the bytes can be counted
by a word, such a cursor does what the cursor with numbers without bounds does: no sum that
is too great for a word wraps around and passes for a small one.
-/

namespace Forwarding

structure WordCursor where
  data : Array UInt8
  position : UInt64

namespace WordCursor

open Cursor (Operation Gain between)

def start (data : Array UInt8) : WordCursor :=
  ⟨data, 0⟩

/-- The number of bytes as far as a word can tell. -/
def length (w : WordCursor) : UInt64 :=
  .ofNat w.data.size

/-- The sum of two words, if it is a word. -/
def checkedAdd (a b : UInt64) : Option UInt64 :=
  if a.toNat + b.toNat < 2 ^ 64 then some (a + b) else none

def pass (w : WordCursor) (count : UInt64) (gain : List UInt8 → Gain) :
    Except Error Gain × WordCursor :=
  match checkedAdd w.position count with
  | some stop =>
      if stop ≤ w.length then
        (.ok (gain (between w.data w.position.toNat stop.toNat)), ⟨w.data, stop⟩)
      else (.error .outOfBounds, w)
  | none => (.error .outOfBounds, w)

def padding (position alignment : UInt64) : UInt64 :=
  (alignment - position % alignment) % alignment

def perform (w : WordCursor) : Operation → Except Error Gain × WordCursor
  | .seek goal =>
      if w.length ≤ goal then (.error .outOfBounds, w) else (.ok .nothing, ⟨w.data, goal⟩)
  | .advance => w.pass 1 fun _ => .nothing
  | .advanceBy step => w.pass step fun _ => .nothing
  | .align alignment _ => w.pass (padding w.position alignment) fun _ => .nothing
  | .peek =>
      match w.data[w.position.toNat]? with
      | some byte => (.ok (.byte byte), w)
      | none => (.error .outOfBounds, w)
  | .readBytes count => w.pass count .bytes
  | .readNumber form => w.pass (.ofNat form.size) fun bytes => .number (form.value bytes)

/-- The cursor behind some operations, whether they succeed or not. -/
def after (w : WordCursor) (operations : List Operation) : WordCursor :=
  operations.foldl (fun w operation => (w.perform operation).2) w

/-! ## The same cursor in numbers without bounds -/

/-- Whether a cursor with a word is in front of the same bytes as one without bounds. -/
structure Represents (w : WordCursor) (c : Cursor) : Prop where
  data : w.data = c.data
  position : w.position.toNat = c.position

theorem toNat_checkedAdd {a b sum : UInt64} (hsum : checkedAdd a b = some sum) :
    sum.toNat = a.toNat + b.toNat := by
  unfold checkedAdd at hsum
  split at hsum
  next hfits =>
    cases hsum
    rw [UInt64.toNat_add, Nat.mod_eq_of_lt hfits]
  next => cases hsum

theorem checkedAdd_eq_none_iff {a b : UInt64} :
    checkedAdd a b = none ↔ 2 ^ 64 ≤ a.toNat + b.toNat := by
  rw [checkedAdd]
  split
  next hfits => simpa using hfits
  next hbeyond => simpa using hbeyond

theorem toNat_padding {alignment : UInt64} (hnonzero : alignment ≠ 0) (position : UInt64) :
    (padding position alignment).toNat = Cursor.padding position.toNat alignment.toNat := by
  have hrest := Nat.mod_lt position.toNat (Cursor.toNat_pos hnonzero)
  have hle : position % alignment ≤ alignment := by
    rw [UInt64.le_iff_toNat_le, UInt64.toNat_mod]
    exact Nat.le_of_lt hrest
  rw [padding, Cursor.padding, UInt64.toNat_mod, UInt64.toNat_sub_of_le _ _ hle, UInt64.toNat_mod]

variable {w : WordCursor} {c : Cursor}

theorem Represents.toNat_length (hsame : w.Represents c) (hsize : c.data.size < 2 ^ 64) :
    w.length.toNat = c.data.size := by
  rw [length, hsame.data]
  exact UInt64.toNat_ofNat_of_lt' hsize

/-- Whether an outcome with a word and one without bounds are the same. -/
def Agree (a : Except Error Gain × WordCursor) (b : Except Error Gain × Cursor) : Prop :=
  a.1 = b.1 ∧ a.2.Represents b.2

theorem Represents.pass (hsame : w.Represents c) (hsize : c.data.size < 2 ^ 64)
    (count : UInt64) (gain : List UInt8 → Gain) :
    Agree (w.pass count gain) (c.pass count.toNat gain) := by
  have hlength := hsame.toNat_length hsize
  rw [WordCursor.pass, Cursor.pass]
  cases hsum : checkedAdd w.position count with
  | none =>
      have hlarge := checkedAdd_eq_none_iff.mp hsum
      rw [hsame.position] at hlarge
      rw [dif_neg (by omega)]
      exact ⟨rfl, hsame⟩
  | some stop =>
      have hstop := toNat_checkedAdd hsum
      rw [hsame.position] at hstop
      by_cases hfits : c.position + count.toNat ≤ c.data.size
      · have hword : stop ≤ w.length := by
          rwa [UInt64.le_iff_toNat_le, hstop, hlength]
        simp only [if_pos hword, dif_pos hfits, hsame.data, hsame.position, hstop]
        exact ⟨rfl, rfl, hstop⟩
      · have hword : ¬stop ≤ w.length := by
          rwa [UInt64.le_iff_toNat_le, hstop, hlength]
        simp only [if_neg hword, dif_neg hfits]
        exact ⟨rfl, hsame⟩

theorem Represents.perform (hsame : w.Represents c) (hsize : c.data.size < 2 ^ 64)
    (operation : Operation) : Agree (w.perform operation) (c.perform operation) := by
  cases operation with
  | seek goal =>
      have hlength := hsame.toNat_length hsize
      rw [WordCursor.perform, Cursor.perform, Cursor.seek]
      by_cases hgoal : goal.toNat < c.data.size
      · have hword : ¬w.length ≤ goal := by
          rw [UInt64.le_iff_toNat_le, hlength]
          omega
        rw [if_neg hword, dif_pos hgoal]
        exact ⟨rfl, hsame.data, rfl⟩
      · have hword : w.length ≤ goal := by
          rw [UInt64.le_iff_toNat_le, hlength]
          omega
        rw [if_pos hword, dif_neg hgoal]
        exact ⟨rfl, hsame⟩
  | advance =>
      rw [Cursor.perform, Cursor.moved_advanceBy]
      exact hsame.pass hsize 1 _
  | advanceBy step =>
      rw [Cursor.perform, Cursor.moved_advanceBy]
      exact hsame.pass hsize step _
  | align alignment hnonzero =>
      rw [Cursor.perform, Cursor.align, Cursor.moved_advanceBy, ← hsame.position,
        ← toNat_padding hnonzero]
      exact hsame.pass hsize _ _
  | peek =>
      rw [WordCursor.perform, Cursor.perform, Cursor.peek, hsame.data, hsame.position]
      cases c.data[c.position]? with
      | none => exact ⟨rfl, hsame⟩
      | some byte => exact ⟨rfl, hsame⟩
  | readBytes count =>
      rw [Cursor.perform_readBytes]
      exact hsame.pass hsize count _
  | readNumber form =>
      have hform : (UInt64.ofNat form.size).toNat = form.size := by
        cases form <;> rfl
      have hpass := hsame.pass hsize (.ofNat form.size) fun bytes => .number (form.value bytes)
      rw [hform] at hpass
      rw [Cursor.perform_readNumber]
      exact hpass

theorem Represents.after (hsame : w.Represents c) (hsize : c.data.size < 2 ^ 64)
    (operations : List Operation) : (w.after operations).Represents (c.after operations) := by
  induction operations generalizing w c with
  | nil => exact hsame
  | cons operation rest ih =>
      refine ih (hsame.perform hsize operation).2 ?_
      rwa [c.data_perform operation]

end WordCursor

/-! ## Whole sequences -/

namespace Cursor

/-- Whatever came before, an operation does exactly what its target says, an alignment has the
least multiple that is not before the position as its target, and a cursor whose position is a
word of 64 bits does the same as long as a word can count its bytes. -/
theorem operations_exact (data : Array UInt8) (earlier : List Operation) (operation : Operation) :
    operation.Exact data ((start data).after earlier).position
      (((start data).after earlier).perform operation).1
      (((start data).after earlier).perform operation).2.position ∧
    (∀ alignment hnonzero, operation = .align alignment hnonzero →
      IsLeast {m | ((start data).after earlier).position ≤ m ∧ alignment.toNat ∣ m}
        (operation.target ((start data).after earlier).position)) ∧
    (data.size < 2 ^ 64 →
      WordCursor.Agree (((WordCursor.start data).after earlier).perform operation)
        (((start data).after earlier).perform operation)) := by
  have hdata := (start data).data_after earlier
  refine ⟨?_, ?_, ?_⟩
  · have hexact := ((start data).after earlier).perform_exact operation
    rwa [hdata] at hexact
  · rintro alignment hnonzero rfl
    exact isLeast_multiple (toNat_pos hnonzero)
  · intro hsize
    have hstart : (WordCursor.start data).Represents (start data) := ⟨rfl, rfl⟩
    refine (hstart.after hsize earlier).perform ?_ operation
    rwa [hdata]

/-- The alignment goes from 1 to 4; the bytes that are asked for would end at the first number
that is too great for a word. -/
theorem operations_exact_wrapping :
    (#[1, 2] : Array UInt8).size < 2 ^ 64 ∧
      (((WordCursor.start #[1, 2]).after [.advance]).perform
        (.readBytes 0xffffffffffffffff)).1 = .error .outOfBounds ∧
      (((WordCursor.start #[1, 2]).after [.advance]).perform
        (.readBytes 0xffffffffffffffff)).2.position.toNat = 1 ∧
      IsLeast {m | 1 ≤ m ∧ 4 ∣ m} 4 := by
  have hsize : (#[1, 2] : Array UInt8).size < 2 ^ 64 := by decide
  obtain ⟨houtcome, hsame⟩ :=
    (operations_exact #[1, 2] [.advance] (.readBytes 0xffffffffffffffff)).2.2 hsize
  have hleast := (operations_exact #[1, 2] [.advance] (.align 4 (by decide))).2.1 4 _ rfl
  exact ⟨hsize, houtcome.trans rfl, hsame.position.trans rfl, hleast⟩

end Cursor

end Forwarding
