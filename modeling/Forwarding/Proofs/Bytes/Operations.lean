import Mathlib.Data.Nat.Digits.Defs
import Mathlib.Order.Bounds.Basic
import Forwarding.Proofs.Bytes.Reading

/-!
# Operations on a cursor

Whatever is asked of a cursor has a target, which is computed in numbers without bounds from
the position and the argument.  An operation succeeds if and only if its target lies within
the bytes; then it moves there and gives back what the bytes between stand for.  Otherwise it
runs out of bytes and the cursor stays.
-/

namespace Forwarding

/-! ## Numbers of a fixed size -/

inductive NumberForm
  | u8
  | i8
  | u16
  | i16
  | u32
  | i32
  | u64
  | i64
  deriving DecidableEq, Repr

namespace NumberForm

def size : NumberForm → Nat
  | .u8 | .i8 => 1
  | .u16 | .i16 => 2
  | .u32 | .i32 => 4
  | .u64 | .i64 => 8

def isSigned : NumberForm → Bool
  | .u8 | .u16 | .u32 | .u64 => false
  | .i8 | .i16 | .i32 | .i64 => true

/-- The value of bytes as the digits of a number, the most significant first. -/
def magnitude (bytes : List UInt8) : Nat :=
  Nat.ofDigits 256 (bytes.reverse.map UInt8.toNat)

/-- The number that bytes stand for; with a sign they are its two's complement. -/
def value (form : NumberForm) (bytes : List UInt8) : Int :=
  if form.isSigned ∧ 256 ^ form.size ≤ 2 * magnitude bytes then
    (magnitude bytes : Int) - (256 ^ form.size : Nat)
  else magnitude bytes

/-- Reads a number of this form. -/
def reader : NumberForm → Reader Int
  | .u8 => (fun v => (v.toNat : Int)) <$> Reader.u8
  | .i8 => Int8.toInt <$> Reader.i8
  | .u16 => (fun v => (v.toNat : Int)) <$> Reader.u16
  | .i16 => Int16.toInt <$> Reader.i16
  | .u32 => (fun v => (v.toNat : Int)) <$> Reader.u32
  | .i32 => Int32.toInt <$> Reader.i32
  | .u64 => (fun v => (v.toNat : Int)) <$> Reader.u64
  | .i64 => Int64.toInt <$> Reader.i64

theorem magnitude_eq_bigEndian (bytes : List UInt8) :
    magnitude bytes = Reader.bigEndian bytes := by
  induction bytes using List.reverseRecOn with
  | nil => rfl
  | append_singleton bytes byte ih =>
      rw [Reader.bigEndian_append_singleton, ← ih, magnitude, magnitude, List.reverse_append,
        List.reverse_singleton, List.singleton_append, List.map_cons, Nat.ofDigits_cons]
      omega

/-- What a word without a sign becomes when it is kept in this form. -/
def ofWord : NumberForm → Nat → Int
  | .u8, n => (UInt8.ofNat n).toNat
  | .i8, n => (UInt8.ofNat n).toInt8.toInt
  | .u16, n => (UInt16.ofNat n).toNat
  | .i16, n => (UInt16.ofNat n).toInt16.toInt
  | .u32, n => (UInt32.ofNat n).toNat
  | .i32, n => (UInt32.ofNat n).toInt32.toInt
  | .u64, n => (UInt64.ofNat n).toNat
  | .i64, n => (UInt64.ofNat n).toInt64.toInt

theorem reader_eq (form : NumberForm) : form.reader = form.ofWord <$> Reader.word form.size := by
  cases form <;>
    simp only [reader, Reader.u8, Reader.i8, Reader.u16, Reader.i16, Reader.u32, Reader.i32,
      Reader.u64, Reader.i64, Functor.map_map] <;> rfl

theorem bmod_of_lt {n modulus : Nat} (hn : n < modulus) :
    (n : Int).bmod modulus = if modulus ≤ 2 * n then (n : Int) - modulus else n := by
  rw [Int.bmod_def, Int.emod_eq_of_lt (by omega) (by omega)]
  split <;> split <;> omega

theorem ofWord_bigEndian (form : NumberForm) {bytes : List UInt8}
    (hlength : bytes.length = form.size) :
    form.ofWord (Reader.bigEndian bytes) = form.value bytes := by
  have hbound := Reader.bigEndian_lt bytes
  rw [hlength] at hbound
  have hsigned := bmod_of_lt hbound
  rw [value, magnitude_eq_bigEndian]
  cases form with
  | u8 | u16 | u32 | u64 =>
      simp only [size, Nat.reducePow] at hbound
      simp only [ofWord, isSigned, UInt8.toNat_ofNat', UInt16.toNat_ofNat', UInt32.toNat_ofNat',
        UInt64.toNat_ofNat', Nat.reducePow, Nat.mod_eq_of_lt hbound]
      rfl
  | i8 | i16 | i32 | i64 =>
      simp only [isSigned, true_and]
      rw [← hsigned]
      simp only [ofWord, UInt8.toInt8_ofNat', UInt16.toInt16_ofNat', UInt32.toInt32_ofNat',
        UInt64.toInt64_ofNat', Int8.toInt_ofNat', Int16.toInt_ofNat', Int32.toInt_ofNat',
        Int64.toInt_ofNat']
      rfl

example : value .i16 [0xff, 0xf6] = -10 := by decide

end NumberForm

namespace Cursor

/-! ## Operations -/

inductive Operation
  | seek (position : UInt64)
  | advance
  | advanceBy (step : UInt64)
  | align (alignment : UInt64) (nonzero : alignment ≠ 0)
  | peek
  | readBytes (count : UInt64)
  | readNumber (form : NumberForm)

/-- What an operation gives back. -/
inductive Gain
  | nothing
  | byte (value : UInt8)
  | bytes (content : List UInt8)
  | number (value : Int)
  deriving DecidableEq, Repr

/-- A move that fails leaves the cursor where it is. -/
def moved (c : Cursor) : Except Error Cursor → Except Error Gain × Cursor
  | .ok c' => (.ok .nothing, c')
  | .error error => (.error error, c)

def perform (c : Cursor) : Operation → Except Error Gain × Cursor
  | .seek position => c.moved (c.seek position.toNat)
  | .advance => c.moved (c.advanceBy 1)
  | .advanceBy step => c.moved (c.advanceBy step.toNat)
  | .align alignment _ => c.moved (c.align alignment.toNat)
  | .peek => (c.peek.map .byte, c)
  | .readBytes count => (Gain.bytes <$> Reader.bytes count.toNat).run c
  | .readNumber form => (Gain.number <$> form.reader).run c

/-- The cursor behind some operations, whether they succeed or not. -/
def after (c : Cursor) (operations : List Operation) : Cursor :=
  operations.foldl (fun c operation => (c.perform operation).2) c

/-! ## Targets -/

/-- The place that an operation goes to from a position. -/
def Operation.target (position : Nat) : Operation → Nat
  | .seek goal => goal.toNat
  | .advance => position + 1
  | .advanceBy step => position + step.toNat
  | .align alignment _ => (position + alignment.toNat - 1) / alignment.toNat * alignment.toNat
  | .peek => position
  | .readBytes count => position + count.toNat
  | .readNumber form => position + form.size

/-- Whether a target is within the bytes.  Most operations may go to the end, but a byte must
stand where one is looked for. -/
def Operation.Within (target size : Nat) : Operation → Prop
  | .seek _ | .peek => target < size
  | _ => target ≤ size

def between (data : Array UInt8) (first last : Nat) : List UInt8 :=
  (data.extract first last).toList

/-- Whether an operation that went from one position to another is to give this back. -/
def Operation.Gives (data : Array UInt8) (first last : Nat) (gain : Gain) : Operation → Prop
  | .seek _ | .advance | .advanceBy _ | .align _ _ => gain = .nothing
  | .peek => ∃ byte, data[first]? = some byte ∧ gain = .byte byte
  | .readBytes _ => gain = .bytes (between data first last)
  | .readNumber form => gain = .number (form.value (between data first last))

/-- What an operation does from a position, in terms of its target. -/
structure Operation.Exact (operation : Operation) (data : Array UInt8) (position : Nat)
    (outcome : Except Error Gain) (stop : Nat) : Prop where
  succeeds_iff : (∃ gain, outcome = .ok gain) ↔
    operation.Within (operation.target position) data.size
  of_ok : ∀ gain, outcome = .ok gain →
    stop = operation.target position ∧ operation.Gives data position stop gain
  of_error : ∀ error, outcome = .error error → error = .outOfBounds ∧ stop = position
  stop_le : stop ≤ data.size

variable {c : Cursor} {operation : Operation} {gain : Gain}

theorem exact_of_within {c' : Cursor}
    (hwithin : operation.Within (operation.target c.position) c.data.size)
    (hdata : c'.data = c.data) (hstop : c'.position = operation.target c.position)
    (hgives : operation.Gives c.data c.position (operation.target c.position) gain) :
    operation.Exact c.data c.position (.ok gain) c'.position where
  succeeds_iff := ⟨fun _ => hwithin, fun _ => ⟨gain, rfl⟩⟩
  of_ok := by
    rintro _ ⟨⟩
    exact ⟨hstop, hstop ▸ hgives⟩
  of_error := by rintro _ ⟨⟩
  stop_le := by
    rw [← hdata]
    exact c'.position_le

theorem exact_of_beyond (hbeyond : ¬operation.Within (operation.target c.position) c.data.size) :
    operation.Exact c.data c.position (.error .outOfBounds) c.position where
  succeeds_iff := ⟨by rintro ⟨_, ⟨⟩⟩, fun hwithin => absurd hwithin hbeyond⟩
  of_ok := by rintro _ ⟨⟩
  of_error := by
    rintro _ ⟨⟩
    exact ⟨rfl, rfl⟩
  stop_le := c.position_le

/-! ## Operations that pass bytes -/

/-- Goes on by a number of bytes, if there are so many, and gives what they mean. -/
def pass (c : Cursor) (count : Nat) (gain : List UInt8 → Gain) : Except Error Gain × Cursor :=
  if h : c.position + count ≤ c.data.size then
    (.ok (gain (between c.data c.position (c.position + count))),
      ⟨c.data, c.position + count, h⟩)
  else (.error .outOfBounds, c)

theorem moved_advanceBy (c : Cursor) (count : Nat) :
    c.moved (c.advanceBy count) = c.pass count fun _ => .nothing := by
  rw [advanceBy, pass]
  split <;> rfl

theorem run_take_done (c : Cursor) (count : Nat) (gain : List UInt8 → Gain) :
    (Reader.take count fun bytes => .done (gain bytes)).run c = c.pass count gain := by
  by_cases hfits : c.position + count ≤ c.data.size
  · simp only [Reader.run, take?, pass, dif_pos hfits, between]
  · simp only [Reader.run, take?, pass, dif_neg hfits]

theorem perform_readBytes (c : Cursor) (count : UInt64) :
    c.perform (.readBytes count) = c.pass count.toNat .bytes :=
  c.run_take_done count.toNat .bytes

theorem perform_readNumber (c : Cursor) (form : NumberForm) :
    c.perform (.readNumber form) = c.pass form.size fun bytes => .number (form.value bytes) := by
  have hread : c.perform (.readNumber form) =
      c.pass form.size fun bytes => .number (form.ofWord (Reader.bigEndian bytes)) := by
    rw [← run_take_done, perform, form.reader_eq]
    rfl
  rw [hread, pass, pass]
  split
  next hfits =>
    have hlength : (between c.data c.position (c.position + form.size)).length = form.size := by
      simp only [between, Array.length_toList, Array.size_extract]
      omega
    rw [form.ofWord_bigEndian hlength]
  next => rfl

theorem data_pass (c : Cursor) (count : Nat) (gain : List UInt8 → Gain) :
    (c.pass count gain).2.data = c.data := by
  rw [pass]
  split <;> rfl

theorem exact_pass {count : Nat} {gain : List UInt8 → Gain}
    (htarget : operation.target c.position = c.position + count)
    (hwithin : ∀ target size, operation.Within target size ↔ target ≤ size)
    (hgives : ∀ first last, operation.Gives c.data first last (gain (between c.data first last))) :
    operation.Exact c.data c.position (c.pass count gain).1 (c.pass count gain).2.position := by
  rw [pass]
  split
  next hfits =>
    have hreach : operation.Within (operation.target c.position) c.data.size := by
      rwa [hwithin, htarget]
    refine exact_of_within hreach rfl htarget.symm ?_
    rw [htarget]
    exact hgives _ _
  next hfits =>
    refine exact_of_beyond ?_
    rwa [hwithin, htarget]

/-! ## Alignment -/

variable {position alignment : Nat}

theorem isLeast_multiple (halignment : 0 < alignment) :
    IsLeast {m | position ≤ m ∧ alignment ∣ m}
      ((position + alignment - 1) / alignment * alignment) := by
  have hsplit := Nat.div_add_mod (position + alignment - 1) alignment
  have hrest := Nat.mod_lt (position + alignment - 1) halignment
  constructor
  · refine ⟨?_, Nat.dvd_mul_left _ _⟩
    rw [Nat.mul_comm]
    omega
  · rintro m ⟨hle, k, rfl⟩
    have hlt : position + alignment - 1 < alignment * (k + 1) := by
      rw [Nat.mul_succ]
      omega
    rw [Nat.mul_comm alignment]
    exact Nat.mul_le_mul_right _ (Nat.lt_succ_iff.mp (Nat.div_lt_of_lt_mul hlt))

theorem toNat_pos {n : UInt64} (hnonzero : n ≠ 0) : 0 < n.toNat := by
  rw [Nat.pos_iff_ne_zero]
  intro hzero
  exact hnonzero (UInt64.toNat_inj.mp hzero)

theorem isLeast_padding (halignment : 0 < alignment) :
    IsLeast {m | position ≤ m ∧ alignment ∣ m} (position + padding position alignment) := by
  have hsplit := Nat.div_add_mod position alignment
  have hrest := Nat.mod_lt position halignment
  rw [padding]
  rcases Nat.eq_zero_or_pos (position % alignment) with hzero | hbehind
  · rw [hzero, Nat.sub_zero, Nat.mod_self, Nat.add_zero]
    exact ⟨⟨le_rfl, Nat.dvd_of_mod_eq_zero hzero⟩, fun m hm => hm.1⟩
  · rw [Nat.mod_eq_of_lt (by omega)]
    have hnext : position + (alignment - position % alignment) =
        alignment * (position / alignment + 1) := by
      rw [Nat.mul_succ]
      omega
    rw [hnext]
    refine ⟨⟨by omega, Nat.dvd_mul_right _ _⟩, ?_⟩
    rintro m ⟨hle, k, rfl⟩
    have hlt : alignment * (position / alignment) < alignment * k := by omega
    exact Nat.mul_le_mul_left _ (Nat.lt_of_mul_lt_mul_left hlt)

theorem perform_exact (c : Cursor) (operation : Operation) :
    operation.Exact c.data c.position (c.perform operation).1 (c.perform operation).2.position := by
  cases operation with
  | seek goal =>
      by_cases hgoal : goal.toNat < c.data.size
      · have hperform : c.perform (.seek goal) =
            (.ok .nothing, ⟨c.data, goal.toNat, Nat.le_of_lt hgoal⟩) := by
          simp only [perform, seek, dif_pos hgoal, moved]
        rw [hperform]
        exact exact_of_within hgoal rfl rfl rfl
      · have hperform : c.perform (.seek goal) = (.error .outOfBounds, c) := by
          simp only [perform, seek, dif_neg hgoal, moved]
        rw [hperform]
        exact exact_of_beyond hgoal
  | advance =>
      rw [perform, moved_advanceBy]
      exact exact_pass rfl (fun _ _ => Iff.rfl) fun _ _ => rfl
  | advanceBy step =>
      rw [perform, moved_advanceBy]
      exact exact_pass rfl (fun _ _ => Iff.rfl) fun _ _ => rfl
  | align alignment hnonzero =>
      have hpositive := toNat_pos hnonzero
      rw [perform, align, moved_advanceBy]
      refine exact_pass ?_ (fun _ _ => Iff.rfl) fun _ _ => rfl
      exact (isLeast_multiple hpositive).unique (isLeast_padding hpositive)
  | peek =>
      rw [perform, peek]
      cases hbyte : c.data[c.position]? with
      | none =>
          exact exact_of_beyond (Nat.not_lt.mpr (Array.getElem?_eq_none_iff.mp hbyte))
      | some byte =>
          obtain ⟨hbelow, -⟩ := Array.getElem?_eq_some_iff.mp hbyte
          exact exact_of_within hbelow rfl rfl ⟨byte, hbyte, rfl⟩
  | readBytes count =>
      rw [perform_readBytes]
      exact exact_pass rfl (fun _ _ => Iff.rfl) fun _ _ => rfl
  | readNumber form =>
      rw [perform_readNumber]
      exact exact_pass rfl (fun _ _ => Iff.rfl) fun _ _ => rfl

theorem data_perform (c : Cursor) (operation : Operation) :
    (c.perform operation).2.data = c.data := by
  cases operation with
  | seek goal =>
      rw [perform, seek]
      split <;> rfl
  | advance =>
      rw [perform, moved_advanceBy]
      exact c.data_pass ..
  | advanceBy step =>
      rw [perform, moved_advanceBy]
      exact c.data_pass ..
  | align alignment hnonzero =>
      rw [perform, align, moved_advanceBy]
      exact c.data_pass ..
  | peek => rfl
  | readBytes count =>
      rw [perform_readBytes]
      exact c.data_pass ..
  | readNumber form =>
      rw [perform_readNumber]
      exact c.data_pass ..

theorem data_after (c : Cursor) (operations : List Operation) :
    (c.after operations).data = c.data := by
  induction operations generalizing c with
  | nil => rfl
  | cons operation rest ih => exact (ih _).trans (c.data_perform operation)

end Cursor

end Forwarding
