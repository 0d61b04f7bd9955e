import Forwarding.Bytes.Cursor

/-!
# Readers

A reader is a program that takes bytes from a cursor in order.  Because it is
data, a law about reading, such as what happens when the bytes are cut short,
needs to be proved once for all readers.  Multi-byte values are big-endian.
-/

namespace Forwarding

inductive Reader (α : Type) where
  | done (value : α)
  | fail (error : Error)
  | take (count : Nat) (next : List UInt8 → Reader α)
  | locate (next : Nat → Reader α)

namespace Reader

variable {α β : Type}

def bind : Reader α → (α → Reader β) → Reader β
  | .done value, f => f value
  | .fail error, _ => .fail error
  | .take count next, f => .take count fun bytes => (next bytes).bind f
  | .locate next, f => .locate fun position => (next position).bind f

instance : Monad Reader where
  pure := .done
  bind := bind

/-- The outcome of a reader and the cursor it leaves.  A reader that fails
leaves the cursor behind what it has taken. -/
def run : Reader α → Cursor → Except Error α × Cursor
  | .done value, c => (.ok value, c)
  | .fail error, c => (.error error, c)
  | .take count next, c =>
      match c.take? count with
      | some (bytes, c') => (next bytes).run c'
      | none => (.error .outOfBounds, c)
  | .locate next, c => (next c.position).run c

def runOn (reader : Reader α) (data : Array UInt8) : Except Error α :=
  (reader.run (.start data)).1

/-! ## Sequencing -/

@[simp] theorem run_pure (value : α) (c : Cursor) :
    (pure value : Reader α).run c = (.ok value, c) := rfl

/-- The second reader starts where the first one ended. -/
theorem run_bind (reader : Reader α) (f : α → Reader β) (c : Cursor) :
    (reader >>= f).run c =
      match reader.run c with
      | (.ok value, c') => (f value).run c'
      | (.error error, c') => (.error error, c') := by
  change (reader.bind f).run c = _
  induction reader generalizing c with
  | done value => rfl
  | fail error => rfl
  | take count next ih =>
    simp only [bind, run]
    cases c.take? count with
    | none => rfl
    | some taken => exact ih taken.1 taken.2
  | locate next ih => exact ih c.position c

theorem bind_done (reader : Reader α) : reader.bind .done = reader := by
  induction reader with
  | done value => rfl
  | fail error => rfl
  | take count next ih => exact congrArg _ (funext ih)
  | locate next ih => exact congrArg _ (funext ih)

theorem bind_bind {γ : Type} (reader : Reader α) (f : α → Reader β)
    (g : β → Reader γ) :
    (reader.bind f).bind g = reader.bind fun value => (f value).bind g := by
  induction reader with
  | done value => rfl
  | fail error => rfl
  | take count next ih => exact congrArg _ (funext ih)
  | locate next ih => exact congrArg _ (funext ih)

instance : LawfulMonad Reader :=
  LawfulMonad.mk' Reader bind_done (fun _ _ => rfl) bind_bind

/-! ## Parts of the input -/

def ofExcept : Except Error α → Reader α
  | .ok value => .done value
  | .error error => .fail error

def position : Reader Nat :=
  .locate .done

def bytes (count : Nat) : Reader (List UInt8) :=
  .take count .done

def skip (count : Nat) : Reader Unit :=
  .take count fun _ => .done ()

/-- Skips to the next multiple of the alignment. -/
def align (alignment : Nat) : Reader Unit :=
  .locate fun position => skip (Cursor.padding position alignment)

/-- Applies a reader a number of times; the results so far are given
backwards. -/
def collect (reader : Reader α) : Nat → List α → Reader (List α)
  | 0, backwards => .done backwards.reverse
  | count + 1, backwards =>
      reader.bind fun value => collect reader count (value :: backwards)

def many (reader : Reader α) (count : Nat) : Reader (List α) :=
  collect reader count []

def repeated (reader : Reader Unit) : Nat → Reader Unit
  | 0 => .done ()
  | count + 1 => reader.bind fun _ => repeated reader count

/-! ## Numbers -/

/-- The number that bytes stand for, the most significant first. -/
def bigEndian (bytes : List UInt8) : Nat :=
  bytes.foldl (fun value byte => value * 256 + byte.toNat) 0

def word (count : Nat) : Reader Nat :=
  .take count fun bytes => .done (bigEndian bytes)

def u8 : Reader UInt8 :=
  UInt8.ofNat <$> word 1

def u16 : Reader UInt16 :=
  UInt16.ofNat <$> word 2

def u32 : Reader UInt32 :=
  UInt32.ofNat <$> word 4

def u64 : Reader UInt64 :=
  UInt64.ofNat <$> word 8

def i8 : Reader Int8 :=
  UInt8.toInt8 <$> u8

def i16 : Reader Int16 :=
  UInt16.toInt16 <$> u16

def i32 : Reader Int32 :=
  UInt32.toInt32 <$> u32

def i64 : Reader Int64 :=
  UInt64.toInt64 <$> u64

end Reader

end Forwarding
