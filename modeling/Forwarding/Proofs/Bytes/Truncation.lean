import Forwarding.Proofs.Bytes.Reading

/-!
# Bytes that are cut short

A reader that succeeds does the same on the first part of the bytes, as long as that part
reaches to where the reader ended.  On a shorter part it runs out of bytes, and on no part
does it fail in another way or succeed with another value.
-/

namespace Forwarding

namespace Cursor

variable {c c' e : Cursor} {bytes : List UInt8} {limit : Nat}

/-- Whether a cursor stands in the same place as another one, in front of the bytes up to a
limit only. -/
structure IsCut (limit : Nat) (e c : Cursor) : Prop where
  size : e.data.size = limit
  position : e.position = c.position
  begins : e.rest <+: c.rest

theorem isCut_start {data : Array UInt8} (hlimit : limit ≤ data.size) :
    (start (data.extract 0 limit)).IsCut limit (start data) where
  size := by
    change (data.extract 0 limit).size = limit
    simp [hlimit]
  position := rfl
  begins := by
    simp only [rest_start, Array.toList_extract, List.extract_eq_take_drop, List.drop_zero]
    exact List.take_prefix _ _

theorem IsCut.position_le (hcut : e.IsCut limit c) : c.position ≤ limit := by
  have hle := e.position_le
  rw [hcut.size, hcut.position] at hle
  exact hle

theorem IsCut.remaining_eq (hcut : e.IsCut limit c) : e.remaining = limit - c.position := by
  rw [remaining, hcut.size, hcut.position]

/-- What stands in front of the limit is still there. -/
theorem IsCut.exists_passes (hcut : e.IsCut limit c) (hpasses : c.Passes bytes c')
    (hwithin : c'.position ≤ limit) : ∃ e', e.Passes bytes e' ∧ e'.IsCut limit c' := by
  have hend := hpasses.position
  have hlength : bytes.length ≤ e.rest.length := by
    rw [length_rest, hcut.remaining_eq]
    omega
  have hbytes : bytes <+: c.rest := by
    rw [hpasses.rest]
    exact List.prefix_append _ _
  obtain ⟨rest, hrest⟩ := List.prefix_of_prefix_length_le hbytes hcut.begins hlength
  obtain ⟨e', hpasses', hbehind⟩ := Cursor.exists_passes hrest.symm
  refine ⟨e', hpasses', ?_, ?_, ?_⟩
  · rw [hpasses'.data, hcut.size]
  · rw [hpasses'.position, hcut.position, hend]
  · have hbegins := hcut.begins
    rw [← hrest, hpasses.rest, List.prefix_append_right_inj] at hbegins
    rwa [hbehind]

end Cursor

namespace Reader

variable {α : Type} {reader : Reader α} {c c' e : Cursor} {bytes : List UInt8} {value : α}
  {limit : Nat}

/-- A reader never goes back, and reads in one row of bytes. -/
theorem run_forward (reader : Reader α) (c : Cursor) :
    (reader.run c).2.data = c.data ∧ c.position ≤ (reader.run c).2.position := by
  induction reader generalizing c with
  | done value => simp [run]
  | fail error => simp [run]
  | take count next ih =>
      rw [run]
      cases htake : c.take? count with
      | none => simp
      | some taken =>
          obtain ⟨first, c₁⟩ := taken
          have hpasses := (Cursor.take?_eq_some_iff.mp htake).2
          have hrest := ih first c₁
          have hnext := hpasses.position
          simp only [hrest.1, hpasses.data, true_and]
          omega
  | locate next ih => exact ih c.position c

/-- A reader in front of a part of what it takes runs out of bytes. -/
theorem Reads.run_of_short (hreads : reader.Reads c.position bytes value)
    (hbegins : c.rest <+: bytes) (hshort : c.remaining < bytes.length) :
    ∃ c', reader.run c = (.error .outOfBounds, c') := by
  generalize hposition : c.position = start at hreads
  induction hreads generalizing c with
  | done start value => simp at hshort
  | @take count start next first rest value hlength _ ih =>
      rw [run]
      cases htake : c.take? count with
      | none => exact ⟨c, rfl⟩
      | some taken =>
          obtain ⟨front, c₁⟩ := taken
          obtain ⟨hfront, hpasses⟩ := Cursor.take?_eq_some_iff.mp htake
          have hsame : front = first := by
            rw [hpasses.rest] at hbegins
            have hprefix := (List.prefix_append front c₁.rest).trans hbegins
            have htaken := List.prefix_iff_eq_take.mp hprefix
            rwa [hfront, ← hlength, List.take_left] at htaken
          subst hsame
          have hremaining : c.remaining = front.length + c₁.remaining := by
            rw [← c.length_rest, hpasses.rest, List.length_append, c₁.length_rest]
          apply ih
          · rwa [hpasses.rest, List.prefix_append_right_inj] at hbegins
          · rw [List.length_append] at hshort
            omega
          · rw [hpasses.position, hfront, hposition]
  | locate _ ih =>
      rw [run, hposition]
      exact ih hbegins hshort hposition

/-- A reader that ends in front of the limit does the same on the bytes up to the limit. -/
theorem run_within (hcut : e.IsCut limit c) (hrun : reader.run c = (.ok value, c'))
    (hwithin : c'.position ≤ limit) :
    ∃ e', reader.run e = (.ok value, e') ∧ e'.IsCut limit c' := by
  obtain ⟨bytes, hpasses, hreads⟩ := run_eq_ok_iff.mp hrun
  obtain ⟨e', hpasses', hcut'⟩ := hcut.exists_passes hpasses hwithin
  rw [← hcut.position] at hreads
  exact ⟨e', run_eq_ok_iff.mpr ⟨bytes, hpasses', hreads⟩, hcut'⟩

/-- A reader that ends behind the limit runs out of bytes. -/
theorem run_beyond (hcut : e.IsCut limit c) (hrun : reader.run c = (.ok value, c'))
    (hbeyond : limit < c'.position) : ∃ e', reader.run e = (.error .outOfBounds, e') := by
  obtain ⟨bytes, hpasses, hreads⟩ := run_eq_ok_iff.mp hrun
  have hend := hpasses.position
  have hstart := hcut.position_le
  have hshort : e.remaining < bytes.length := by
    rw [hcut.remaining_eq]
    omega
  have hbytes : bytes <+: c.rest := by
    rw [hpasses.rest]
    exact List.prefix_append _ _
  have hbegins : e.rest <+: bytes := by
    apply List.prefix_of_prefix_length_le hcut.begins hbytes
    rw [Cursor.length_rest]
    omega
  rw [← hcut.position] at hreads
  exact hreads.run_of_short hbegins hshort

end Reader

end Forwarding
