import Forwarding.Error

/-!
# Cursors

A cursor is a position inside a row of bytes.  It never points beyond the end,
and an operation that would take it there fails and leaves it where it is.
-/

namespace Forwarding

structure Cursor where
  data : Array UInt8
  position : Nat
  position_le : position ≤ data.size

namespace Cursor

def start (data : Array UInt8) : Cursor :=
  ⟨data, 0, Nat.zero_le _⟩

def size (c : Cursor) : Nat :=
  c.data.size

def remaining (c : Cursor) : Nat :=
  c.data.size - c.position

def hasMore (c : Cursor) : Bool :=
  c.position < c.data.size

/-- The bytes that have not been read. -/
def rest (c : Cursor) : List UInt8 :=
  c.data.toList.drop c.position

/-- The next bytes and the cursor behind them, if there are that many. -/
def take? (c : Cursor) (count : Nat) : Option (List UInt8 × Cursor) :=
  if h : c.position + count ≤ c.data.size then
    some ((c.data.extract c.position (c.position + count)).toList,
      ⟨c.data, c.position + count, h⟩)
  else none

def advanceBy (c : Cursor) (count : Nat) : Except Error Cursor :=
  if h : c.position + count ≤ c.data.size then
    .ok ⟨c.data, c.position + count, h⟩
  else .error .outOfBounds

/-- Moves to a position, which must be the position of a byte. -/
def seek (c : Cursor) (position : Nat) : Except Error Cursor :=
  if h : position < c.data.size then .ok ⟨c.data, position, Nat.le_of_lt h⟩
  else .error .outOfBounds

/-- The number of bytes up to the next multiple of the alignment. -/
def padding (position alignment : Nat) : Nat :=
  (alignment - position % alignment) % alignment

def align (c : Cursor) (alignment : Nat) : Except Error Cursor :=
  c.advanceBy (padding c.position alignment)

def peek (c : Cursor) : Except Error UInt8 :=
  match c.data[c.position]? with
  | some byte => .ok byte
  | none => .error .outOfBounds

/-! ## What is left -/

@[simp] theorem length_rest (c : Cursor) : c.rest.length = c.remaining := by
  simp [rest, remaining]

theorem take?_eq_none_iff {c : Cursor} {count : Nat} :
    c.take? count = none ↔ c.remaining < count := by
  have hle := c.position_le
  simp only [take?, remaining]
  split
  · simp
    omega
  · simp
    omega

/-- What is taken stands in front of what is left. -/
theorem rest_of_take? {c c' : Cursor} {count : Nat} {bytes : List UInt8}
    (h : c.take? count = some (bytes, c')) :
    c.rest = bytes ++ c'.rest ∧ bytes.length = count ∧ c'.data = c.data ∧
      c'.position = c.position + count := by
  simp only [take?] at h
  split at h
  · rename_i hfits
    obtain ⟨rfl, rfl⟩ := Prod.mk.inj (Option.some.inj h)
    refine ⟨?_, ?_, rfl, rfl⟩
    · simp only [rest, Array.toList_extract, List.extract_eq_take_drop,
        Nat.add_sub_cancel_left]
      rw [← List.drop_drop, List.take_append_drop]
    · simp only [Array.length_toList, Array.size_extract]
      omega
  · exact absurd h (by simp)

end Cursor

end Forwarding
