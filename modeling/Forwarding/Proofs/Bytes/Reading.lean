import Mathlib.Data.List.Induction
import Mathlib.Algebra.Group.Nat.Defs
import Forwarding.Bytes.Reader

/-!
# What readers take

A reader that succeeds has taken the bytes right behind the cursor and left the
others.  Which bytes go with which value is a relation between the two that does
not mention the cursor, only the position where the bytes begin.  The relation
composes along the reader, and for a number it says that the bytes are the
number's big-endian form.
-/

namespace Forwarding

/-- What can be checked for each of the bytes holds of every byte. -/
theorem forall_byte {p : UInt8 → Prop} (hall : ∀ n : Fin 256, p (UInt8.ofNat n)) (b : UInt8) :
    p b := by
  have hb := hall ⟨b.toNat, b.toNat_lt⟩
  rwa [UInt8.ofNat_toNat] at hb

namespace Cursor

variable {c c' c'' : Cursor} {bytes first second rest : List UInt8} {count : Nat}

/-- Whether one cursor stands behind another with just these bytes between. -/
structure Passes (c : Cursor) (bytes : List UInt8) (c' : Cursor) : Prop where
  data : c'.data = c.data
  position : c'.position = c.position + bytes.length
  rest : c.rest = bytes ++ c'.rest

theorem take?_eq_some_iff :
    c.take? count = some (bytes, c') ↔ bytes.length = count ∧ c.Passes bytes c' := by
  constructor
  · intro htake
    have htaken := rest_of_take? htake
    exact ⟨htaken.2.1, htaken.2.2.1, by rw [htaken.2.1]; exact htaken.2.2.2, htaken.1⟩
  · rintro ⟨hlength, hpasses⟩
    cases htake : c.take? count with
    | none =>
        have hshort := take?_eq_none_iff.mp htake
        have hlong := congrArg List.length hpasses.rest
        simp only [length_rest, List.length_append] at hlong
        omega
    | some taken =>
        obtain ⟨hrest, htaken, hdata, hposition⟩ := rest_of_take? htake
        have hbytes : taken.1 = bytes := by
          rw [hpasses.rest] at hrest
          exact (List.append_inj_left hrest (by omega)).symm
        have hcursor : taken.2 = c' := by
          obtain ⟨bytes', ⟨data, position, hle⟩⟩ := taken
          obtain ⟨data', position', hle'⟩ := c'
          have hsame := hpasses.position
          simp only [mk.injEq]
          exact ⟨hdata.trans hpasses.data.symm, hposition.trans (hlength ▸ hsame.symm)⟩
        rw [← hbytes, ← hcursor]

theorem passes_nil_iff : c.Passes [] c' ↔ c' = c := by
  constructor
  · intro hpasses
    obtain ⟨data, position, hle⟩ := c
    obtain ⟨data', position', hle'⟩ := c'
    have hdata := hpasses.data
    have hposition := hpasses.position
    simp only [List.length_nil, Nat.add_zero] at hdata hposition
    subst hdata hposition
    rfl
  · rintro rfl
    exact ⟨rfl, rfl, rfl⟩

theorem Passes.trans (hfirst : c.Passes first c') (hsecond : c'.Passes second c'') :
    c.Passes (first ++ second) c'' where
  data := hsecond.data.trans hfirst.data
  position := by
    rw [hsecond.position, hfirst.position, List.length_append, Nat.add_assoc]
  rest := by rw [hfirst.rest, hsecond.rest, List.append_assoc]

theorem exists_passes (hrest : c.rest = bytes ++ rest) :
    ∃ c', c.Passes bytes c' ∧ c'.rest = rest := by
  cases htake : c.take? bytes.length with
  | none =>
      have hshort := take?_eq_none_iff.mp htake
      have hlong := congrArg List.length hrest
      simp only [length_rest, List.length_append] at hlong
      omega
  | some taken =>
      obtain ⟨hsplit, hlength, hdata, hposition⟩ := rest_of_take? htake
      rw [hrest] at hsplit
      obtain ⟨hbytes, hbehind⟩ := List.append_inj hsplit hlength.symm
      refine ⟨taken.2, ⟨hdata, hposition, ?_⟩, hbehind.symm⟩
      rw [hrest, hbehind]

theorem passes_append_iff :
    c.Passes (first ++ second) c'' ↔ ∃ c', c.Passes first c' ∧ c'.Passes second c'' := by
  constructor
  · intro hpasses
    have hrest := hpasses.rest
    rw [List.append_assoc] at hrest
    obtain ⟨c', hfirst, hbehind⟩ := exists_passes hrest
    refine ⟨c', hfirst, hpasses.data.trans hfirst.data.symm, ?_, hbehind⟩
    rw [hpasses.position, hfirst.position, List.length_append, Nat.add_assoc]
  · rintro ⟨c', hfirst, hsecond⟩
    exact hfirst.trans hsecond

@[simp] theorem rest_start (data : Array UInt8) : (start data).rest = data.toList := rfl

end Cursor

namespace Reader

variable {α β : Type} {reader : Reader α} {c c' : Cursor} {bytes : List UInt8}
  {start count : Nat} {value : α}

/-- Whether a reader takes exactly these bytes, which begin at the position, and
gives the value. -/
inductive Reads : Reader α → Nat → List UInt8 → α → Prop
  | done (start : Nat) (value : α) : Reads (.done value) start [] value
  | take {count start : Nat} {next : List UInt8 → Reader α} {first rest : List UInt8}
      {value : α} (hlength : first.length = count)
      (hrest : Reads (next first) (start + count) rest value) :
      Reads (.take count next) start (first ++ rest) value
  | locate {start : Nat} {next : Nat → Reader α} {bytes : List UInt8} {value : α}
      (hnext : Reads (next start) start bytes value) :
      Reads (.locate next) start bytes value

theorem reads_done_iff {result : α} :
    (.done result : Reader α).Reads start bytes value ↔ bytes = [] ∧ value = result := by
  constructor
  · rintro ⟨⟩
    exact ⟨rfl, rfl⟩
  · rintro ⟨rfl, rfl⟩
    exact .done start value

@[simp] theorem reads_fail_iff {error : Error} :
    (.fail error : Reader α).Reads start bytes value ↔ False := by
  constructor
  · rintro ⟨⟩
  · exact False.elim

theorem reads_take_iff {next : List UInt8 → Reader α} :
    (.take count next : Reader α).Reads start bytes value ↔
      ∃ first rest, bytes = first ++ rest ∧ first.length = count ∧
        (next first).Reads (start + count) rest value := by
  constructor
  · intro hreads
    cases hreads with
    | take hlength hrest => exact ⟨_, _, rfl, hlength, hrest⟩
  · rintro ⟨first, rest, rfl, hlength, hrest⟩
    exact .take hlength hrest

theorem reads_locate_iff {next : Nat → Reader α} :
    (.locate next : Reader α).Reads start bytes value ↔
      (next start).Reads start bytes value := by
  constructor
  · intro hreads
    cases hreads with
    | locate hnext => exact hnext
  · exact .locate

theorem run_eq_ok_iff :
    reader.run c = (.ok value, c') ↔
      ∃ bytes, c.Passes bytes c' ∧ reader.Reads c.position bytes value := by
  induction reader generalizing c with
  | done result =>
      simp only [run, reads_done_iff, Prod.mk.injEq, Except.ok.injEq]
      constructor
      · rintro ⟨rfl, rfl⟩
        exact ⟨[], Cursor.passes_nil_iff.mpr rfl, rfl, rfl⟩
      · rintro ⟨bytes, hpasses, rfl, rfl⟩
        exact ⟨rfl, (Cursor.passes_nil_iff.mp hpasses).symm⟩
  | fail error => simp [run]
  | take count next ih =>
      simp only [run, reads_take_iff]
      constructor
      · intro hrun
        cases htake : c.take? count with
        | none => simp [htake] at hrun
        | some taken =>
            obtain ⟨first, c₁⟩ := taken
            simp only [htake] at hrun
            obtain ⟨hlength, hfirst⟩ := Cursor.take?_eq_some_iff.mp htake
            obtain ⟨rest, hrest, hreads⟩ := (ih first).mp hrun
            rw [hfirst.position, hlength] at hreads
            exact ⟨first ++ rest, hfirst.trans hrest, first, rest, rfl, hlength, hreads⟩
      · rintro ⟨bytes, hpasses, first, rest, rfl, hlength, hreads⟩
        obtain ⟨c₁, hfirst, hrest⟩ := Cursor.passes_append_iff.mp hpasses
        have htake := Cursor.take?_eq_some_iff.mpr ⟨hlength, hfirst⟩
        simp only [htake]
        apply (ih first).mpr
        rw [hfirst.position, hlength]
        exact ⟨rest, hrest, hreads⟩
  | locate next ih =>
      simp only [run, reads_locate_iff]
      exact ih c.position

/-- A reader succeeds in front of bytes that it takes, whatever follows them. -/
theorem Reads.run_eq {rest : List UInt8} (hreads : reader.Reads c.position bytes value)
    (hrest : c.rest = bytes ++ rest) :
    ∃ c', reader.run c = (.ok value, c') ∧ c.Passes bytes c' ∧ c'.rest = rest := by
  obtain ⟨c', hpasses, hbehind⟩ := Cursor.exists_passes hrest
  exact ⟨c', run_eq_ok_iff.mpr ⟨bytes, hpasses, hreads⟩, hpasses, hbehind⟩

/-- A reader that leaves nothing takes all the bytes. -/
theorem reads_of_run_start (hvalue : (reader.run (.start bytes.toArray)).1 = .ok value)
    (hend : (reader.run (.start bytes.toArray)).2.rest = []) : reader.Reads 0 bytes value := by
  obtain ⟨taken, hpasses, hreads⟩ := run_eq_ok_iff.mp (Prod.ext hvalue rfl)
  have htaken : bytes = taken := by simpa [hend] using hpasses.rest
  rw [htaken]
  exact hreads

/-! ## Sequences -/

@[simp] theorem reads_pure_iff {result : α} :
    (pure result : Reader α).Reads start bytes value ↔ bytes = [] ∧ value = result :=
  reads_done_iff

theorem reads_bind_iff {f : α → Reader β} {value : β} :
    (reader >>= f).Reads start bytes value ↔
      ∃ first rest a, bytes = first ++ rest ∧ reader.Reads start first a ∧
        (f a).Reads (start + first.length) rest value := by
  change (reader.bind f).Reads start bytes value ↔ _
  induction reader generalizing start bytes with
  | done result => simp [bind, reads_done_iff]
  | fail error => simp [bind]
  | take count next ih =>
      simp only [bind, reads_take_iff, ih]
      constructor
      · rintro ⟨taken, rest, rfl, rfl, first, rest, a, rfl, hfirst, hrest⟩
        refine ⟨taken ++ first, rest, a, by simp, ⟨taken, first, rfl, rfl, hfirst⟩, ?_⟩
        simpa [Nat.add_assoc] using hrest
      · rintro ⟨first, rest, a, rfl, ⟨taken, first, rfl, rfl, hfirst⟩, hrest⟩
        refine ⟨taken, first ++ rest, by simp, rfl, first, rest, a, rfl, hfirst, ?_⟩
        simpa [Nat.add_assoc] using hrest
  | locate next ih =>
      simp only [bind, reads_locate_iff]
      exact ih start

theorem reads_bind_pure_iff {f : α → β} {value : β} :
    (reader >>= fun a => pure (f a)).Reads start bytes value ↔
      ∃ a, reader.Reads start bytes a ∧ value = f a := by
  rw [reads_bind_iff]
  constructor
  · rintro ⟨first, rest, a, rfl, hfirst, hrest⟩
    obtain ⟨rfl, rfl⟩ := reads_pure_iff.mp hrest
    exact ⟨a, by simpa using hfirst, rfl⟩
  · rintro ⟨a, hreads, rfl⟩
    exact ⟨bytes, [], a, by simp, hreads, reads_pure_iff.mpr ⟨rfl, rfl⟩⟩

theorem reads_map_iff {f : α → β} {value : β} :
    (f <$> reader).Reads start bytes value ↔
      ∃ a, reader.Reads start bytes a ∧ value = f a := by
  rw [← bind_pure_comp, reads_bind_pure_iff]

theorem reads_ofExcept_iff {outcome : Except Error α} :
    (ofExcept outcome).Reads start bytes value ↔ bytes = [] ∧ outcome = .ok value := by
  cases outcome with
  | ok result => simp [ofExcept, reads_done_iff, eq_comm]
  | error error => simp [ofExcept]

theorem reads_position_iff {value : Nat} :
    position.Reads start bytes value ↔ bytes = [] ∧ value = start :=
  reads_locate_iff.trans reads_done_iff

theorem reads_bytes_iff {value : List UInt8} :
    (Reader.bytes count).Reads start bytes value ↔ bytes = value ∧ value.length = count := by
  simp only [Reader.bytes, reads_take_iff, reads_done_iff]
  constructor
  · rintro ⟨first, rest, rfl, hlength, rfl, rfl⟩
    exact ⟨List.append_nil _, hlength⟩
  · rintro ⟨rfl, hlength⟩
    exact ⟨bytes, [], by simp, hlength, rfl, rfl⟩

theorem reads_skip_iff :
    (skip count).Reads start bytes () ↔ bytes.length = count := by
  simp only [skip, reads_take_iff, reads_done_iff]
  constructor
  · rintro ⟨first, rest, rfl, hlength, rfl, -⟩
    rw [List.append_nil, hlength]
  · intro hlength
    exact ⟨bytes, [], by simp, hlength, rfl, trivial⟩

theorem reads_align_iff {alignment : Nat} :
    (align alignment).Reads start bytes () ↔
      bytes.length = Cursor.padding start alignment :=
  reads_locate_iff.trans reads_skip_iff

/-! ## Numbers -/

/-- The big-endian form of a number that fits the given number of bytes. -/
def toBytes : Nat → Nat → List UInt8
  | 0, _ => []
  | count + 1, value => toBytes count (value / 256) ++ [UInt8.ofNat value]

@[simp] theorem length_toBytes (count value : Nat) :
    (toBytes count value).length = count := by
  induction count generalizing value with
  | zero => rfl
  | succ count ih => simp [toBytes, ih]

theorem bigEndian_append_singleton (bytes : List UInt8) (byte : UInt8) :
    bigEndian (bytes ++ [byte]) = bigEndian bytes * 256 + byte.toNat := by
  simp [bigEndian]

theorem bigEndian_lt (bytes : List UInt8) : bigEndian bytes < 256 ^ bytes.length := by
  induction bytes using List.reverseRecOn with
  | nil => simp [bigEndian]
  | append_singleton bytes byte ih =>
      have hbyte := byte.toNat_lt
      rw [bigEndian_append_singleton, List.length_append, List.length_singleton, Nat.pow_succ]
      omega

theorem bigEndian_toBytes {value : Nat} (hvalue : value < 256 ^ count) :
    bigEndian (toBytes count value) = value := by
  induction count generalizing value with
  | zero =>
      have hzero : value = 0 := by simpa using hvalue
      simp [toBytes, bigEndian, hzero]
  | succ count ih =>
      have hquotient : value / 256 < 256 ^ count := by
        rw [Nat.pow_succ] at hvalue
        omega
      rw [toBytes, bigEndian_append_singleton, ih hquotient]
      simp only [UInt8.toNat_ofNat']
      omega

theorem toBytes_bigEndian (bytes : List UInt8) :
    toBytes bytes.length (bigEndian bytes) = bytes := by
  induction bytes using List.reverseRecOn with
  | nil => rfl
  | append_singleton bytes byte ih =>
      have hbyte := byte.toNat_lt
      have hquotient : (bigEndian bytes * 256 + byte.toNat) / 256 = bigEndian bytes := by
        omega
      have hlast : UInt8.ofNat (bigEndian bytes * 256 + byte.toNat) = byte := by
        apply UInt8.toNat_inj.mp
        simp only [UInt8.toNat_ofNat']
        omega
      rw [bigEndian_append_singleton, List.length_append, List.length_singleton, toBytes,
        hquotient, hlast, ih]

theorem reads_word_iff {value : Nat} :
    (word count).Reads start bytes value ↔
      value < 256 ^ count ∧ bytes = toBytes count value := by
  simp only [word, reads_take_iff, reads_done_iff]
  constructor
  · rintro ⟨first, rest, rfl, rfl, rfl, rfl⟩
    rw [List.append_nil, toBytes_bigEndian]
    exact ⟨bigEndian_lt first, rfl⟩
  · rintro ⟨hvalue, rfl⟩
    refine ⟨toBytes count value, [], by simp, length_toBytes .., rfl, ?_⟩
    exact (bigEndian_toBytes hvalue).symm

/-- A number that is kept in another type is read as its big-endian form. -/
theorem reads_map_word_iff {ofNat : Nat → α} {toNat : α → Nat}
    (hbound : ∀ v, toNat v < 256 ^ count) (hleft : ∀ v, ofNat (toNat v) = v)
    (hright : ∀ n < 256 ^ count, toNat (ofNat n) = n) :
    (ofNat <$> word count).Reads start bytes value ↔ bytes = toBytes count (toNat value) := by
  simp only [reads_map_iff, reads_word_iff]
  constructor
  · rintro ⟨n, ⟨hn, rfl⟩, rfl⟩
    rw [hright n hn]
  · rintro rfl
    exact ⟨toNat value, ⟨hbound value, rfl⟩, (hleft value).symm⟩

theorem reads_map_iff_of_inverse {f : α → β} {g : β → α} {value : β}
    (hleft : ∀ a, g (f a) = a) (hright : ∀ b, f (g b) = b) :
    (f <$> reader).Reads start bytes value ↔ reader.Reads start bytes (g value) := by
  rw [reads_map_iff]
  constructor
  · rintro ⟨a, hreads, rfl⟩
    rwa [hleft]
  · intro hreads
    exact ⟨g value, hreads, (hright value).symm⟩

theorem reads_u8_iff {value : UInt8} : u8.Reads start bytes value ↔ bytes = [value] := by
  have hform : toBytes 1 value.toNat = [value] := by simp [toBytes]
  rw [u8, reads_map_word_iff UInt8.toNat_lt (by simp)
    (fun n hn => UInt8.toNat_ofNat_of_lt' hn), hform]

theorem reads_u16_iff {value : UInt16} :
    u16.Reads start bytes value ↔ bytes = toBytes 2 value.toNat :=
  reads_map_word_iff UInt16.toNat_lt (by simp) fun _ hn => UInt16.toNat_ofNat_of_lt' hn

theorem reads_u32_iff {value : UInt32} :
    u32.Reads start bytes value ↔ bytes = toBytes 4 value.toNat :=
  reads_map_word_iff UInt32.toNat_lt (by simp) fun _ hn => UInt32.toNat_ofNat_of_lt' hn

theorem reads_u64_iff {value : UInt64} :
    u64.Reads start bytes value ↔ bytes = toBytes 8 value.toNat :=
  reads_map_word_iff UInt64.toNat_lt (by simp) fun _ hn => UInt64.toNat_ofNat_of_lt' hn

theorem reads_i8_iff {value : Int8} :
    i8.Reads start bytes value ↔ bytes = [value.toUInt8] :=
  (reads_map_iff_of_inverse (by simp) (by simp)).trans reads_u8_iff

theorem reads_i16_iff {value : Int16} :
    i16.Reads start bytes value ↔ bytes = toBytes 2 value.toUInt16.toNat :=
  (reads_map_iff_of_inverse (by simp) (by simp)).trans reads_u16_iff

theorem reads_i32_iff {value : Int32} :
    i32.Reads start bytes value ↔ bytes = toBytes 4 value.toUInt32.toNat :=
  (reads_map_iff_of_inverse (by simp) (by simp)).trans reads_u32_iff

theorem reads_i64_iff {value : Int64} :
    i64.Reads start bytes value ↔ bytes = toBytes 8 value.toUInt64.toNat :=
  (reads_map_iff_of_inverse (by simp) (by simp)).trans reads_u64_iff

theorem reads_u16_bind_iff {f : UInt16 → Reader β} {value : β} :
    (u16 >>= f).Reads start bytes value ↔
      ∃ number rest, bytes = toBytes 2 number.toNat ++ rest ∧
        (f number).Reads (start + 2) rest value := by
  simp only [reads_bind_iff, reads_u16_iff]
  constructor
  · rintro ⟨_, rest, number, rfl, rfl, hrest⟩
    exact ⟨number, rest, rfl, by rwa [length_toBytes] at hrest⟩
  · rintro ⟨number, rest, rfl, hrest⟩
    exact ⟨_, rest, number, rfl, rfl, by rwa [length_toBytes]⟩

theorem reads_u32_bind_iff {f : UInt32 → Reader β} {value : β} :
    (u32 >>= f).Reads start bytes value ↔
      ∃ number rest, bytes = toBytes 4 number.toNat ++ rest ∧
        (f number).Reads (start + 4) rest value := by
  simp only [reads_bind_iff, reads_u32_iff]
  constructor
  · rintro ⟨_, rest, number, rfl, rfl, hrest⟩
    exact ⟨number, rest, rfl, by rwa [length_toBytes] at hrest⟩
  · rintro ⟨number, rest, rfl, hrest⟩
    exact ⟨_, rest, number, rfl, rfl, by rwa [length_toBytes]⟩

/-! ## Bytes in any place -/

/-- Whether a reader takes the bytes for the value wherever they begin. -/
def Takes (reader : Reader α) (bytes : List UInt8) (value : α) : Prop :=
  ∀ start, reader.Reads start bytes value

variable {f : α → Reader β} {first rest : List UInt8} {a : α} {b : β}

theorem takes_pure (value : α) : (pure value : Reader α).Takes [] value := by
  intro start
  exact reads_pure_iff.mpr ⟨rfl, rfl⟩

theorem Takes.bind (hfirst : reader.Takes first a) (hrest : (f a).Takes rest b) :
    (reader >>= f).Takes (first ++ rest) b := by
  intro start
  exact reads_bind_iff.mpr ⟨first, rest, a, rfl, hfirst start, hrest _⟩

theorem Takes.bind_pure (htakes : reader.Takes bytes a) (g : α → β) :
    (reader >>= fun value => pure (g value)).Takes bytes (g a) := by
  intro start
  exact reads_bind_pure_iff.mpr ⟨a, htakes start, rfl⟩

theorem Takes.map (htakes : reader.Takes bytes a) (g : α → β) :
    (g <$> reader).Takes bytes (g a) := by
  intro start
  exact reads_map_iff.mpr ⟨a, htakes start, rfl⟩

theorem takes_ofExcept {outcome : Except Error α} (houtcome : outcome = .ok value) :
    (ofExcept outcome).Takes [] value := by
  intro start
  exact reads_ofExcept_iff.mpr ⟨rfl, houtcome⟩

theorem takes_bytes (bytes : List UInt8) : (Reader.bytes bytes.length).Takes bytes bytes := by
  intro start
  exact reads_bytes_iff.mpr ⟨rfl, rfl⟩

theorem takes_skip (hlength : bytes.length = count) : (skip count).Takes bytes () := by
  intro start
  exact reads_skip_iff.mpr hlength

theorem takes_u8 (value : UInt8) : u8.Takes [value] value := by
  intro start
  exact reads_u8_iff.mpr rfl

theorem takes_u16 (value : UInt16) : u16.Takes (toBytes 2 value.toNat) value := by
  intro start
  exact reads_u16_iff.mpr rfl

theorem takes_u32 (value : UInt32) : u32.Takes (toBytes 4 value.toNat) value := by
  intro start
  exact reads_u32_iff.mpr rfl

theorem takes_u64 (value : UInt64) : u64.Takes (toBytes 8 value.toNat) value := by
  intro start
  exact reads_u64_iff.mpr rfl

theorem takes_i32 (value : Int32) : i32.Takes (toBytes 4 value.toUInt32.toNat) value := by
  intro start
  exact reads_i32_iff.mpr rfl

theorem takes_i64 (value : Int64) : i64.Takes (toBytes 8 value.toUInt64.toNat) value := by
  intro start
  exact reads_i64_iff.mpr rfl

/-! ## Counts and repetitions -/

theorem toNat_ofNat16 (hcount : count < 2 ^ 16) : (UInt16.ofNat count).toNat = count :=
  UInt16.toNat_ofNat_of_lt' hcount

theorem toNat_ofNat32 (hcount : count < 2 ^ 32) : (UInt32.ofNat count).toNat = count :=
  UInt32.toNat_ofNat_of_lt' hcount

/-- A number that fits two bytes is read in front of what it announces. -/
theorem takes_count16 {f : UInt16 → Reader β} (hcount : count < 2 ^ 16)
    (hrest : (f (UInt16.ofNat count)).Takes rest b) :
    (u16 >>= f).Takes (toBytes 2 count ++ rest) b := by
  have htakes := takes_u16 (UInt16.ofNat count)
  rw [toNat_ofNat16 hcount] at htakes
  exact htakes.bind hrest

theorem takes_count32 {f : UInt32 → Reader β} (hcount : count < 2 ^ 32)
    (hrest : (f (UInt32.ofNat count)).Takes rest b) :
    (u32 >>= f).Takes (toBytes 4 count ++ rest) b := by
  have htakes := takes_u32 (UInt32.ofNat count)
  rw [toNat_ofNat32 hcount] at htakes
  exact htakes.bind hrest

theorem takes_collect {values backwards : List α} {written : α → List UInt8}
    (htakes : ∀ v ∈ values, reader.Takes (written v) v) :
    (collect reader values.length backwards).Takes (values.flatMap written)
      (backwards.reverse ++ values) := by
  induction values generalizing backwards with
  | nil =>
      rw [List.append_nil]
      exact takes_pure backwards.reverse
  | cons v rest ih =>
      rw [List.forall_mem_cons] at htakes
      have hothers := @ih (v :: backwards) htakes.2
      rw [List.reverse_cons, List.append_assoc] at hothers
      exact htakes.1.bind hothers

/-- Values that follow each other are read one after the other. -/
theorem takes_many {values : List α} {written : α → List UInt8}
    (htakes : ∀ v ∈ values, reader.Takes (written v) v) :
    (many reader values.length).Takes (values.flatMap written) values := by
  have hcollect := @takes_collect _ _ _ [] _ htakes
  exact hcollect

theorem takes_repeated {reader : Reader Unit} {values : List α} {written : α → List UInt8}
    (htakes : ∀ v ∈ values, reader.Takes (written v) ()) :
    (repeated reader values.length).Takes (values.flatMap written) () := by
  induction values with
  | nil => exact takes_pure ()
  | cons v rest ih =>
      rw [List.forall_mem_cons] at htakes
      exact htakes.1.bind (ih htakes.2)

end Reader

end Forwarding
