import Forwarding.Bytes.Reader

/-!
# What reading can fail with

Bytes that cannot be read are cut short or malformed.  A reader that is put together
from readers without other errors has no other errors itself.
-/

namespace Forwarding

/-- Whether an error says of bytes that they are cut short or malformed. -/
inductive Error.IsUnreadable : Error → Prop
  | outOfBounds : IsUnreadable .outOfBounds
  | malformed (cause : Malformation) : IsUnreadable (.malformed cause)

theorem Error.isUnreadable_of_ofMalformation {α : Type} {outcome : Except Malformation α}
    {error : Error} (houtcome : Error.ofMalformation outcome = .error error) :
    error.IsUnreadable := by
  cases outcome with
  | ok value => cases houtcome
  | error cause =>
      cases houtcome
      exact .malformed cause

namespace Reader

variable {α β : Type} {reader : Reader α} {c c' : Cursor} {error : Error}

/-- Whether a reader has no errors but those of unreadable bytes. -/
inductive OnlyUnreadable : Reader α → Prop
  | done (value : α) : OnlyUnreadable (.done value)
  | fail {error : Error} (herror : error.IsUnreadable) : OnlyUnreadable (.fail error)
  | take {count : Nat} {next : List UInt8 → Reader α}
      (hnext : ∀ bytes, OnlyUnreadable (next bytes)) : OnlyUnreadable (.take count next)
  | locate {next : Nat → Reader α} (hnext : ∀ position, OnlyUnreadable (next position)) :
      OnlyUnreadable (.locate next)

theorem OnlyUnreadable.of_run (hreader : reader.OnlyUnreadable)
    (hrun : reader.run c = (.error error, c')) : error.IsUnreadable := by
  induction hreader generalizing c with
  | done value => cases hrun
  | fail herror =>
      cases hrun
      exact herror
  | take _ ih =>
      unfold run at hrun
      split at hrun
      next bytes c₁ _ => exact ih bytes hrun
      next =>
        cases hrun
        exact .outOfBounds
  | locate _ ih => exact ih c.position hrun

/-! ## Laws -/

theorem onlyUnreadable_pure (value : α) : (pure value : Reader α).OnlyUnreadable :=
  .done value

theorem onlyUnreadable_malformed (cause : Malformation) :
    (.fail (.malformed cause) : Reader α).OnlyUnreadable :=
  .fail (.malformed cause)

theorem OnlyUnreadable.bind {f : α → Reader β} (hreader : reader.OnlyUnreadable)
    (hnext : ∀ value, (f value).OnlyUnreadable) : (reader >>= f).OnlyUnreadable := by
  change (reader.bind f).OnlyUnreadable
  induction hreader with
  | done value => exact hnext value
  | fail herror => exact .fail herror
  | take _ ih => exact .take ih
  | locate _ ih => exact .locate ih

theorem OnlyUnreadable.map {f : α → β} (hreader : reader.OnlyUnreadable) :
    (f <$> reader).OnlyUnreadable :=
  hreader.bind fun value => onlyUnreadable_pure (f value)

theorem onlyUnreadable_ofExcept {outcome : Except Error α}
    (houtcome : ∀ error, outcome = .error error → error.IsUnreadable) :
    (ofExcept outcome).OnlyUnreadable := by
  cases outcome with
  | ok value => exact .done value
  | error error => exact .fail (houtcome error rfl)

theorem onlyUnreadable_ofMalformation (outcome : Except Malformation α) :
    (ofExcept (Error.ofMalformation outcome)).OnlyUnreadable :=
  onlyUnreadable_ofExcept fun _ => Error.isUnreadable_of_ofMalformation

theorem onlyUnreadable_collect (hreader : reader.OnlyUnreadable) (count : Nat)
    (backwards : List α) : (collect reader count backwards).OnlyUnreadable := by
  induction count generalizing backwards with
  | zero => exact .done _
  | succ count ih => exact hreader.bind fun value => ih (value :: backwards)

theorem onlyUnreadable_many (hreader : reader.OnlyUnreadable) (count : Nat) :
    (many reader count).OnlyUnreadable :=
  onlyUnreadable_collect hreader count []

theorem onlyUnreadable_repeated {reader : Reader Unit} (hreader : reader.OnlyUnreadable)
    (count : Nat) : (repeated reader count).OnlyUnreadable := by
  induction count with
  | zero => exact .done ()
  | succ count ih => exact hreader.bind fun _ => ih

theorem onlyUnreadable_position : position.OnlyUnreadable :=
  .locate .done

theorem onlyUnreadable_bytes (count : Nat) : (bytes count).OnlyUnreadable :=
  .take .done

theorem onlyUnreadable_skip (count : Nat) : (skip count).OnlyUnreadable :=
  .take fun _ => .done ()

theorem onlyUnreadable_align (alignment : Nat) : (align alignment).OnlyUnreadable :=
  .locate fun _ => onlyUnreadable_skip _

theorem onlyUnreadable_word (count : Nat) : (word count).OnlyUnreadable :=
  .take fun _ => .done _

theorem onlyUnreadable_u8 : u8.OnlyUnreadable := (onlyUnreadable_word 1).map

theorem onlyUnreadable_u16 : u16.OnlyUnreadable := (onlyUnreadable_word 2).map

theorem onlyUnreadable_u32 : u32.OnlyUnreadable := (onlyUnreadable_word 4).map

theorem onlyUnreadable_u64 : u64.OnlyUnreadable := (onlyUnreadable_word 8).map

theorem onlyUnreadable_i8 : i8.OnlyUnreadable := onlyUnreadable_u8.map

theorem onlyUnreadable_i16 : i16.OnlyUnreadable := onlyUnreadable_u16.map

theorem onlyUnreadable_i32 : i32.OnlyUnreadable := onlyUnreadable_u32.map

theorem onlyUnreadable_i64 : i64.OnlyUnreadable := onlyUnreadable_u64.map

end Reader

end Forwarding
