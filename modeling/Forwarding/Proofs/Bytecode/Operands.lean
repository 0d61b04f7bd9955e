import Forwarding.Bytecode.Decode
import Forwarding.Proofs.Bytecode.Assembly
import Forwarding.Proofs.Outcome

/-!
# Reading operands

For each layout, the bytes that the reader of the operand takes are the bytes
that fill the operand's form.
-/

namespace Forwarding.Bytecode

open Reader Slot

variable {bytes : List UInt8} {slots : List Slot} {start position : Nat}
  {operand : Operand} {layout : Layout} {i : Instruction} {instructions : List Instruction}

/-! ## Offsets and targets -/

theorem codeOffset_eq_ok_iff {value : Int} {n : Nat} :
    codeOffset value = .ok n ↔ (n : Int) = value ∧ n < 2 ^ 32 := by
  have hsize : UInt32.size = 2 ^ 32 := rfl
  unfold codeOffset
  rw [hsize]
  split
  next hrange =>
    rw [Except.ok.injEq]
    omega
  next hrange =>
    simp only [reduceCtorEq, false_iff]
    omega

theorem mapM_eq_ok_iff {ε α β : Type} {f : α → Except ε β} {as : List α} {bs : List β} :
    as.mapM f = .ok bs ↔ List.Forall₂ (fun a b => f a = .ok b) as bs := by
  induction as generalizing bs with
  | nil => simp [pure, Except.pure, eq_comm]
  | cons a rest ih =>
      rw [List.mapM_cons, except_bind_eq_ok, List.forall₂_cons_left_iff]
      simp only [except_bind_eq_ok, ih]
      constructor
      · rintro ⟨b, hb, others, hothers, hbs⟩
        exact ⟨b, others, hb, hothers, (Except.ok.inj hbs).symm⟩
      · rintro ⟨b, others, hb, hothers, rfl⟩
        exact ⟨b, hb, others, hothers, rfl⟩

theorem branchTargets_eq_ok_iff {offset : Nat} {targets : List Nat} :
    branchTargets offset operand = .ok targets ↔
      targets.map (fun target : Nat => (target : Int)) =
          operand.distances.map (fun distance : Int32 => (offset : Int) + distance.toInt) ∧
        ∀ target ∈ targets, target < 2 ^ 32 := by
  unfold branchTargets
  rw [mapM_eq_ok_iff]
  generalize operand.distances = distances
  induction distances generalizing targets with
  | nil => simp +contextual
  | cons distance rest ih =>
      cases targets with
      | nil => simp
      | cons target others =>
          rw [List.forall₂_cons, codeOffset_eq_ok_iff, ih]
          simp only [List.map_cons, List.cons.injEq, List.forall_mem_cons]
          tauto

/-! ## Jump tables -/

theorem words_flatMap (offsets : List Int32) :
    words (offsets.flatMap fun offset => toBytes 4 offset.toUInt32.toNat) = offsets := by
  induction offsets with
  | nil => rfl
  | cons offset rest ih =>
      obtain ⟨a, b, c, d, hbytes⟩ :
          ∃ a b c d, toBytes 4 offset.toUInt32.toNat = [a, b, c, d] := ⟨_, _, _, _, rfl⟩
      have hvalue : bigEndian [a, b, c, d] = offset.toUInt32.toNat := by
        rw [← hbytes]
        exact bigEndian_toBytes offset.toUInt32.toNat_lt
      rw [List.flatMap_cons, hbytes]
      simp [words, hvalue, ih]

theorem exists_word_cons (hlength : 4 ≤ bytes.length) :
    ∃ a b c d rest, bytes = a :: b :: c :: d :: rest := by
  rcases bytes with _ | ⟨a, _ | ⟨b, _ | ⟨c, _ | ⟨d, rest⟩⟩⟩⟩
  · simp at hlength
  · simp at hlength
  · simp at hlength
  · simp at hlength
  · exact ⟨a, b, c, d, rest, rfl⟩

theorem flatMap_words {count : Nat} (hlength : bytes.length = count * 4) :
    ((words bytes).flatMap fun offset => toBytes 4 offset.toUInt32.toNat) = bytes ∧
      (words bytes).length = count := by
  induction count generalizing bytes with
  | zero =>
      have hnil : bytes = [] := by simpa using hlength
      simp [hnil, words]
  | succ count ih =>
      obtain ⟨a, b, c, d, rest, rfl⟩ := @exists_word_cons bytes (by omega)
      have hrest : rest.length = count * 4 := by
        simp only [List.length_cons] at hlength
        omega
      have hfour : toBytes 4 (bigEndian [a, b, c, d]) = [a, b, c, d] :=
        toBytes_bigEndian [a, b, c, d]
      have hlt : bigEndian [a, b, c, d] < 2 ^ 32 := by
        simpa using bigEndian_lt [a, b, c, d]
      obtain ⟨hbytes, hcount⟩ := ih hrest
      simp [words, UInt32.toNat_ofNat_of_lt' hlt, hfour, hbytes, hcount]

theorem fills_flatMap_word32_iff {offsets : List Int32} :
    Fills bytes (offsets.flatMap word32) ↔
      bytes.length = offsets.length * 4 ∧ words bytes = offsets := by
  have hslots : offsets.flatMap word32 =
      certain (offsets.flatMap fun offset => toBytes 4 offset.toUInt32.toNat) := by
    simp only [certain, List.map_flatMap]
    rfl
  rw [hslots, fills_certain_iff]
  constructor
  · rintro rfl
    exact ⟨by simp [List.length_flatMap], words_flatMap offsets⟩
  · rintro ⟨hlength, rfl⟩
    exact (flatMap_words hlength).1.symm

theorem pairs_flatMap (table : List (Int32 × Int32)) :
    pairs (table.flatMap fun pair => [pair.1, pair.2]) = table := by
  induction table with
  | nil => rfl
  | cons pair rest ih => simp [pairs, ih]

theorem flatMap_pairs {values : List Int32} {count : Nat} (hlength : values.length = count * 2) :
    ((pairs values).flatMap fun pair => [pair.1, pair.2]) = values := by
  induction count generalizing values with
  | zero =>
      have hnil : values = [] := by simpa using hlength
      simp [hnil, pairs]
  | succ count ih =>
      rcases values with _ | ⟨key, _ | ⟨offset, rest⟩⟩
      · simp at hlength
      · simp only [List.length_cons, List.length_nil] at hlength
        omega
      · have hrest : rest.length = count * 2 := by
          simp only [List.length_cons] at hlength
          omega
        simp [pairs, ih hrest]

theorem length_flatMap_pair (table : List (Int32 × Int32)) :
    (table.flatMap fun pair => [pair.1, pair.2]).length = table.length * 2 := by
  simp [List.length_flatMap]

theorem fills_flatMap_pairs_iff {table : List (Int32 × Int32)} :
    Fills bytes (table.flatMap fun pair => word32 pair.1 ++ word32 pair.2) ↔
      bytes.length = table.length * 8 ∧ pairs (words bytes) = table := by
  have hslots : (table.flatMap fun pair => word32 pair.1 ++ word32 pair.2) =
      (table.flatMap fun pair => [pair.1, pair.2]).flatMap word32 := by
    simp [List.flatMap_assoc]
  rw [hslots, fills_flatMap_word32_iff, length_flatMap_pair]
  constructor
  · rintro ⟨hlength, hwords⟩
    exact ⟨by omega, by rw [hwords, pairs_flatMap]⟩
  · rintro ⟨hlength, rfl⟩
    have hwords : (words bytes).length = (pairs (words bytes)).length * 2 :=
      (@flatMap_words bytes ((pairs (words bytes)).length * 2) (by omega)).2
    exact ⟨by omega, (flatMap_pairs hwords).symm⟩

/-! ## Operands -/

theorem isPadding_iff {count : Nat} :
    IsPadding position count ↔ count = Cursor.padding position 4 := by
  unfold IsPadding Cursor.padding
  omega

theorem fills_word16_iff {value : UInt16} :
    Fills bytes (word16 value) ↔ u16.Reads position bytes value := by
  rw [word16, fills_certain_iff, reads_u16_iff]

theorem fills_word32_iff {value : Int32} :
    Fills bytes (word32 value) ↔ i32.Reads position bytes value := by
  rw [word32, fills_certain_iff, reads_i32_iff]

theorem reads_readTableSwitch_iff :
    (readTableSwitch start).Reads (start + 1) bytes operand ↔
      ∃ slots, operand.Written start false .tableSwitch slots ∧ Fills bytes slots := by
  unfold readTableSwitch
  constructor
  · intro hreads
    obtain ⟨gap, rest, _, rfl, hgap, hreads⟩ := reads_bind_iff.mp hreads
    obtain ⟨first, rest, default, rfl, hdefault, hreads⟩ := reads_bind_iff.mp hreads
    obtain ⟨second, rest, low, rfl, hlow, hreads⟩ := reads_bind_iff.mp hreads
    obtain ⟨third, rest, high, rfl, hhigh, hreads⟩ := reads_bind_iff.mp hreads
    split at hreads
    next => exact (reads_fail_iff.mp hreads).elim
    next hbounds =>
      obtain ⟨table, htable, rfl⟩ := reads_bind_pure_iff.mp hreads
      obtain ⟨hsame, hlength⟩ := reads_bytes_iff.mp htable
      subst rest
      have hle : low ≤ high := Int32.not_lt.mp hbounds
      have hle' : low.toInt ≤ high.toInt := Int32.le_iff_toInt_le.mp hle
      have hcount := (flatMap_words hlength).2
      refine ⟨_, .tableSwitch default low high (words table) gap.length
        (isPadding_iff.mpr (reads_align_iff.mp hgap)) hle (by omega), ?_⟩
      simp only [fills_append_iff]
      exact ⟨gap, _, rfl, fills_free_iff.mpr rfl, first, _, rfl, fills_word32_iff.mpr hdefault,
        second, _, rfl, fills_word32_iff.mpr hlow, third, _, rfl, fills_word32_iff.mpr hhigh,
        fills_flatMap_word32_iff.mpr ⟨by omega, rfl⟩⟩
  · rintro ⟨slots, hwritten, hfills⟩
    cases hwritten with
    | tableSwitch default low high offsets padding hpadding hbounds hcount =>
        simp only [fills_append_iff] at hfills
        obtain ⟨gap, _, rfl, hgap, first, _, rfl, hdefault, second, _, rfl, hlow, third, table,
          rfl, hhigh, htable⟩ := hfills
        obtain ⟨hlength, rfl⟩ := fills_flatMap_word32_iff.mp htable
        have hgap : gap.length = Cursor.padding (start + 1) 4 := by
          rw [fills_free_iff.mp hgap, isPadding_iff.mp hpadding]
        refine reads_bind_iff.mpr ⟨gap, _, (), rfl, reads_align_iff.mpr hgap, ?_⟩
        refine reads_bind_iff.mpr ⟨first, _, default, rfl, fills_word32_iff.mp hdefault, ?_⟩
        refine reads_bind_iff.mpr ⟨second, _, low, rfl, fills_word32_iff.mp hlow, ?_⟩
        refine reads_bind_iff.mpr ⟨third, _, high, rfl, fills_word32_iff.mp hhigh, ?_⟩
        rw [if_neg (Int32.not_lt.mpr hbounds)]
        exact reads_bind_pure_iff.mpr ⟨table, reads_bytes_iff.mpr ⟨rfl, by omega⟩, rfl⟩

theorem reads_readLookupSwitch_iff :
    (readLookupSwitch start).Reads (start + 1) bytes operand ↔
      ∃ slots, operand.Written start false .lookupSwitch slots ∧ Fills bytes slots := by
  unfold readLookupSwitch
  constructor
  · intro hreads
    obtain ⟨gap, rest, _, rfl, hgap, hreads⟩ := reads_bind_iff.mp hreads
    obtain ⟨first, rest, default, rfl, hdefault, hreads⟩ := reads_bind_iff.mp hreads
    obtain ⟨second, rest, count, rfl, hcount, hreads⟩ := reads_bind_iff.mp hreads
    split at hreads
    next => exact (reads_fail_iff.mp hreads).elim
    next hnegative =>
      obtain ⟨table, htable, rfl⟩ := reads_bind_pure_iff.mp hreads
      obtain ⟨hsame, hlength⟩ := reads_bytes_iff.mp htable
      subst rest
      have hle : 0 ≤ count.toInt := Int32.le_iff_toInt_le.mp (Int32.not_lt.mp hnegative)
      have hpairs : (pairs (words table)).length = count.toInt.toNat := by
        have hwords := @flatMap_words table (count.toInt.toNat * 2) (by omega)
        have hflat := congrArg List.length (flatMap_pairs hwords.2)
        rw [length_flatMap_pair, hwords.2] at hflat
        omega
      refine ⟨_, .lookupSwitch default count (pairs (words table)) gap.length
        (isPadding_iff.mpr (reads_align_iff.mp hgap)) (by omega), ?_⟩
      simp only [fills_append_iff]
      exact ⟨gap, _, rfl, fills_free_iff.mpr rfl, first, _, rfl, fills_word32_iff.mpr hdefault,
        second, _, rfl, fills_word32_iff.mpr hcount,
        fills_flatMap_pairs_iff.mpr ⟨by omega, rfl⟩⟩
  · rintro ⟨slots, hwritten, hfills⟩
    cases hwritten with
    | lookupSwitch default count table padding hpadding hlength =>
        rw [fills_append_iff] at hfills
        obtain ⟨gap, _, rfl, hgap, hfills⟩ := hfills
        rw [fills_append_iff] at hfills
        obtain ⟨first, _, rfl, hdefault, hfills⟩ := hfills
        rw [fills_append_iff] at hfills
        obtain ⟨second, bytes, rfl, hcount, htable⟩ := hfills
        obtain ⟨hbytes, rfl⟩ := fills_flatMap_pairs_iff.mp htable
        have hgap : gap.length = Cursor.padding (start + 1) 4 := by
          rw [fills_free_iff.mp hgap, isPadding_iff.mp hpadding]
        have hnegative : ¬count < 0 := by
          rw [Int32.lt_iff_toInt_lt, ← hlength]
          simp
        refine reads_bind_iff.mpr ⟨gap, _, (), rfl, reads_align_iff.mpr hgap, ?_⟩
        refine reads_bind_iff.mpr ⟨first, _, default, rfl, fills_word32_iff.mp hdefault, ?_⟩
        refine reads_bind_iff.mpr ⟨second, _, count, rfl, fills_word32_iff.mp hcount, ?_⟩
        rw [if_neg hnegative]
        exact reads_bind_pure_iff.mpr ⟨bytes, reads_bytes_iff.mpr ⟨rfl, by omega⟩, rfl⟩

/-- An operand that is one value is read if and only if the value's form is. -/
theorem reads_map_iff_written {α : Type} {reader : Reader α} {f : α → Operand}
    {form : α → List Slot} {wide : Bool}
    (hreads : ∀ a, reader.Reads position bytes a ↔ Fills bytes (form a))
    (hwritten : ∀ a, (f a).Written start wide layout (form a))
    (honly : ∀ operand slots, operand.Written start wide layout slots →
      ∃ a, operand = f a ∧ slots = form a) :
    (f <$> reader).Reads position bytes operand ↔
      ∃ slots, operand.Written start wide layout slots ∧ Fills bytes slots := by
  rw [reads_map_iff]
  constructor
  · rintro ⟨a, ha, rfl⟩
    exact ⟨form a, hwritten a, (hreads a).mp ha⟩
  · rintro ⟨slots, hslots, hfills⟩
    obtain ⟨a, rfl, rfl⟩ := honly _ _ hslots
    exact ⟨a, (hreads a).mpr hfills, rfl⟩

theorem reads_bind_iff_written {α β : Type} {first : Reader α} {second : Reader β}
    {f : α → β → Operand} {form : α → List Slot} {form' : β → List Slot} {wide : Bool}
    (hfirst : ∀ bytes a, first.Reads position bytes a ↔ Fills bytes (form a))
    (hsecond : ∀ position bytes b, second.Reads position bytes b ↔ Fills bytes (form' b))
    (hwritten : ∀ a b, (f a b).Written start wide layout (form a ++ form' b))
    (honly : ∀ operand slots, operand.Written start wide layout slots →
      ∃ a b, operand = f a b ∧ slots = form a ++ form' b) :
    (first >>= fun a => second >>= fun b => pure (f a b)).Reads position bytes operand ↔
      ∃ slots, operand.Written start wide layout slots ∧ Fills bytes slots := by
  constructor
  · intro hreads
    obtain ⟨front, back, a, rfl, ha, hreads⟩ := reads_bind_iff.mp hreads
    obtain ⟨b, hb, rfl⟩ := reads_bind_pure_iff.mp hreads
    exact ⟨_, hwritten a b,
      fills_append_iff.mpr ⟨front, back, rfl, (hfirst _ _).mp ha, (hsecond _ _ _).mp hb⟩⟩
  · rintro ⟨slots, hslots, hfills⟩
    obtain ⟨a, b, rfl, rfl⟩ := honly _ _ hslots
    obtain ⟨front, back, rfl, ha, hb⟩ := fills_append_iff.mp hfills
    apply reads_bind_iff.mpr
    refine ⟨front, back, a, rfl, (hfirst _ _).mpr ha, ?_⟩
    exact reads_bind_pure_iff.mpr ⟨b, (hsecond _ _ _).mpr hb, rfl⟩

theorem reads_u8_iff_fills {value : UInt8} :
    u8.Reads position bytes value ↔ Fills bytes (certain [value]) := by
  rw [reads_u8_iff, fills_certain_iff]

theorem reads_i8_iff_fills {value : Int8} :
    i8.Reads position bytes value ↔ Fills bytes (certain [value.toUInt8]) := by
  rw [reads_i8_iff, fills_certain_iff]

theorem reads_i16_iff_fills {value : Int16} :
    i16.Reads position bytes value ↔ Fills bytes (word16 value.toUInt16) := by
  rw [reads_i16_iff, word16, fills_certain_iff]

theorem reads_readNarrow_iff (hlayout : layout ≠ .wide) :
    (readOperand start false layout).Reads (start + 1) bytes operand ↔
      ∃ slots, operand.Written start false layout slots ∧ Fills bytes slots := by
  match layout, hlayout with
  | .empty, _ =>
      constructor
      · intro hreads
        obtain ⟨rfl, rfl⟩ := reads_pure_iff.mp hreads
        exact ⟨[], .empty, by simp⟩
      · rintro ⟨slots, ⟨⟩, hfills⟩
        exact reads_pure_iff.mpr ⟨by simpa using hfills, rfl⟩
  | .int8, _ =>
      apply reads_map_iff_written (fun _ => reads_i8_iff_fills) .int8
      rintro _ _ ⟨⟩
      exact ⟨_, rfl, rfl⟩
  | .uint8, _ =>
      apply reads_map_iff_written (fun _ => reads_u8_iff_fills) .uint8
      rintro _ _ ⟨⟩
      exact ⟨_, rfl, rfl⟩
  | .int16, _ =>
      apply reads_map_iff_written (fun _ => reads_i16_iff_fills) .int16
      rintro _ _ ⟨⟩
      exact ⟨_, rfl, rfl⟩
  | .constant8, _ =>
      apply reads_map_iff_written (fun _ => reads_u8_iff_fills) .constant8
      rintro _ _ ⟨⟩
      exact ⟨_, rfl, rfl⟩
  | .constant16, _ =>
      apply reads_map_iff_written (fun _ => fills_word16_iff.symm) .constant16
      rintro _ _ ⟨⟩
      exact ⟨_, rfl, rfl⟩
  | .variable, _ =>
      have hindex (index : UInt8) : u8.Reads (start + 1) bytes index ↔
          Fills bytes (certain [index]) := reads_u8_iff_fills
      have hmap : (readOperand start false .variable) =
          (fun index : UInt8 => Operand.variable index.toUInt16) <$> u8 := by
        simp [readOperand, variableIndex]
      rw [hmap]
      apply reads_map_iff_written hindex .narrowVariable
      rintro _ _ ⟨⟩
      exact ⟨_, rfl, rfl⟩
  | .increment, _ =>
      have hbind : readOperand start false .increment = u8 >>= fun index => i8 >>= fun delta =>
          pure (Operand.increment index.toUInt16 delta.toInt16) := by
        simp [readOperand, variableIndex, incrementDelta, bind_map_left]
      rw [hbind]
      apply reads_bind_iff_written (fun _ _ => reads_u8_iff_fills)
        (fun _ _ _ => reads_i8_iff_fills) .narrowIncrement
      rintro _ _ ⟨⟩
      exact ⟨_, _, rfl, rfl⟩
  | .branch16, _ =>
      apply reads_map_iff_written (fun _ => reads_i16_iff_fills) .branch16
      rintro _ _ ⟨⟩
      exact ⟨_, rfl, rfl⟩
  | .branch32, _ =>
      apply reads_map_iff_written (fun _ => fills_word32_iff.symm) .branch32
      rintro _ _ ⟨⟩
      exact ⟨_, rfl, rfl⟩
  | .invokeInterface, _ =>
      constructor
      · intro hreads
        obtain ⟨first, rest, index, rfl, hindex, hreads⟩ := reads_bind_iff.mp hreads
        obtain ⟨second, rest, count, rfl, hcount, hreads⟩ := reads_bind_iff.mp hreads
        obtain ⟨_, hreserved, rfl⟩ := reads_bind_pure_iff.mp hreads
        refine ⟨_, .invokeInterface index count, ?_⟩
        simp only [List.append_assoc, fills_append_iff]
        exact ⟨first, _, rfl, fills_word16_iff.mpr hindex, second, _, rfl,
          reads_u8_iff_fills.mp hcount, fills_free_iff.mpr (reads_skip_iff.mp hreserved)⟩
      · rintro ⟨slots, hwritten, hfills⟩
        cases hwritten with
        | invokeInterface index count =>
            simp only [List.append_assoc, fills_append_iff] at hfills
            obtain ⟨first, _, rfl, hindex, second, third, rfl, hcount, hreserved⟩ := hfills
            apply reads_bind_iff.mpr
            refine ⟨first, _, index, rfl, fills_word16_iff.mp hindex, ?_⟩
            apply reads_bind_iff.mpr
            refine ⟨second, _, count, rfl, reads_u8_iff_fills.mpr hcount, ?_⟩
            exact reads_bind_pure_iff.mpr
              ⟨(), reads_skip_iff.mpr (fills_free_iff.mp hreserved), rfl⟩
  | .invokeDynamic, _ =>
      apply reads_bind_iff_written (fun _ _ => fills_word16_iff.symm)
        (fun _ _ _ => reads_skip_iff.trans fills_free_iff.symm) (fun index _ => .invokeDynamic index)
      rintro _ _ ⟨⟩
      exact ⟨_, (), rfl, rfl⟩
  | .multiArray, _ =>
      apply reads_bind_iff_written (fun _ _ => fills_word16_iff.symm)
        (fun _ _ _ => reads_u8_iff_fills) .multiArray
      rintro _ _ ⟨⟩
      exact ⟨_, _, rfl, rfl⟩
  | .tableSwitch, _ => exact reads_readTableSwitch_iff
  | .lookupSwitch, _ => exact reads_readLookupSwitch_iff

theorem reads_readWide_iff (hwide : layout.widens = true) :
    (readOperand start true layout).Reads position bytes operand ↔
      ∃ slots, operand.Written start true layout slots ∧ Fills bytes slots := by
  match layout, hwide with
  | .variable, _ =>
      apply reads_map_iff_written (fun _ => fills_word16_iff.symm) .wideVariable
      rintro _ _ ⟨⟩
      exact ⟨_, rfl, rfl⟩
  | .increment, _ =>
      apply reads_bind_iff_written (fun _ _ => fills_word16_iff.symm)
        (fun _ _ _ => reads_i16_iff_fills) .wideIncrement
      rintro _ _ ⟨⟩
      exact ⟨_, _, rfl, rfl⟩

end Forwarding.Bytecode
