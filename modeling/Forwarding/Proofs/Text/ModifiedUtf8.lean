import Forwarding.Text.ModifiedUtf8
import Forwarding.Proofs.Bytes.Reading

/-!
# Modified UTF-8 of any text can be read

What is written for a text is read as the same text.  The general way goes through
the UTF-16 units.  The short way of plain UTF-8 agrees with it, because wherever the
short way is taken, plain and modified UTF-8 are the same.
-/

namespace Forwarding.Text

/-! ## UTF-16 -/

theorem toNat_lt (c : Char) : c.toNat < 0x110000 := by
  have hvalid : c.toNat < 0xD800 ∨ 0xDFFF < c.toNat ∧ c.toNat < 0x110000 := c.valid
  omega

theorem utf16Units_lt {c : Char} {unit : Nat} (hunit : unit ∈ utf16Units c) :
    unit < 0x10000 := by
  have hchar := toNat_lt c
  unfold utf16Units at hunit
  split at hunit
  next hbasic =>
    rw [List.mem_singleton] at hunit
    omega
  next hbeyond =>
    simp only [List.mem_cons, List.not_mem_nil, or_false] at hunit
    omega

theorem ofUtf16?_utf16Units (c : Char) (rest : List Nat) :
    ofUtf16? (utf16Units c ++ rest) = (ofUtf16? rest).map (c :: ·) := by
  have hvalid : c.toNat < 0xD800 ∨ 0xDFFF < c.toNat ∧ c.toNat < 0x110000 := c.valid
  have hself : Char.ofNat c.toNat = c := Char.ofNat_toNat c
  unfold utf16Units
  split
  next hbasic =>
    have hhigh : isHighSurrogate c.toNat = false := by
      simp only [isHighSurrogate, Bool.and_eq_false_iff, decide_eq_false_iff_not]
      omega
    have hlow : isLowSurrogate c.toNat = false := by
      simp only [isLowSurrogate, Bool.and_eq_false_iff, decide_eq_false_iff_not]
      omega
    rw [List.singleton_append, ofUtf16?.eq_def]
    simp [hhigh, hlow, hself]
  next hbeyond =>
    have hhigh : isHighSurrogate (0xD800 + (c.toNat - 0x10000) / 0x400) = true := by
      simp only [isHighSurrogate, Bool.and_eq_true, decide_eq_true_eq]
      omega
    have hlow : isLowSurrogate (0xDC00 + (c.toNat - 0x10000) % 0x400) = true := by
      simp only [isLowSurrogate, Bool.and_eq_true, decide_eq_true_eq]
      omega
    have hjoin : joinSurrogates (0xD800 + (c.toNat - 0x10000) / 0x400)
        (0xDC00 + (c.toNat - 0x10000) % 0x400) = c := by
      have hsum : 0x10000 + (0xD800 + (c.toNat - 0x10000) / 0x400 - 0xD800) * 0x400 +
          (0xDC00 + (c.toNat - 0x10000) % 0x400 - 0xDC00) = c.toNat := by
        omega
      rw [joinSurrogates, hsum, hself]
    rw [List.cons_append, List.singleton_append, ofUtf16?.eq_def]
    simp [hhigh, hlow, hjoin]

theorem ofUtf16?_flatMap (text : List Char) :
    ofUtf16? (text.flatMap utf16Units) = some text := by
  induction text with
  | nil => rfl
  | cons c rest ih => rw [List.flatMap_cons, ofUtf16?_utf16Units, ih, Option.map_some]

namespace ModifiedUtf8

/-! ## Bytes -/

theorem toNat_ofNat {n : Nat} (hn : n < 0x100) : (UInt8.ofNat n).toNat = n :=
  UInt8.toNat_ofNat_of_lt' hn

theorem isSingle_iff (b : UInt8) : b &&& 0x80 = 0 ∧ b ≠ 0 ↔ 0 < b.toNat ∧ b.toNat < 0x80 :=
  @forall_byte (fun b => b &&& 0x80 = 0 ∧ b ≠ 0 ↔ 0 < b.toNat ∧ b.toNat < 0x80)
    (by decide +kernel) b

theorem isLeadOfTwo_iff (b : UInt8) : b &&& 0xE0 = 0xC0 ↔ 0xC0 ≤ b.toNat ∧ b.toNat < 0xE0 :=
  @forall_byte (fun b => b &&& 0xE0 = 0xC0 ↔ 0xC0 ≤ b.toNat ∧ b.toNat < 0xE0)
    (by decide +kernel) b

theorem isLeadOfThree_iff (b : UInt8) : b &&& 0xF0 = 0xE0 ↔ 0xE0 ≤ b.toNat ∧ b.toNat < 0xF0 :=
  @forall_byte (fun b => b &&& 0xF0 = 0xE0 ↔ 0xE0 ≤ b.toNat ∧ b.toNat < 0xF0)
    (by decide +kernel) b

theorem isContinuation_iff (b : UInt8) :
    isContinuation b = true ↔ 0x80 ≤ b.toNat ∧ b.toNat < 0xC0 :=
  @forall_byte (fun b => isContinuation b = true ↔ 0x80 ≤ b.toNat ∧ b.toNat < 0xC0)
    (by decide +kernel) b

theorem payload_eq (b : UInt8) : payload b = b.toNat % 0x40 := by
  rw [payload, UInt8.toNat_and]
  exact Nat.and_two_pow_sub_one_eq_mod b.toNat 6

theorem leadOfTwo_eq (b : UInt8) : (b &&& 0x1F).toNat = b.toNat % 0x20 := by
  rw [UInt8.toNat_and]
  exact Nat.and_two_pow_sub_one_eq_mod b.toNat 5

theorem leadOfThree_eq (b : UInt8) : (b &&& 0x0F).toNat = b.toNat % 0x10 := by
  rw [UInt8.toNat_and]
  exact Nat.and_two_pow_sub_one_eq_mod b.toNat 4

/-! ## Units -/

variable {offset unit : Nat} {backwards : List Nat} {lead middle low : UInt8} {rest : List UInt8}

theorem unitsFrom_single (hlead : 0 < lead.toNat ∧ lead.toNat < 0x80) :
    unitsFrom offset backwards (lead :: rest) =
      unitsFrom (offset + 1) (lead.toNat :: backwards) rest := by
  rw [unitsFrom.eq_def]
  simp only [(isSingle_iff lead).mpr hlead, ne_eq, not_false_eq_true, and_self, if_true]

theorem unitsFrom_two (hlead : 0xC0 ≤ lead.toNat ∧ lead.toNat < 0xE0)
    (hlow : 0x80 ≤ low.toNat ∧ low.toNat < 0xC0) :
    unitsFrom offset backwards (lead :: low :: rest) =
      unitsFrom (offset + 2) ((lead.toNat % 0x20 * 0x40 + low.toNat % 0x40) :: backwards)
        rest := by
  have hsingle : ¬(lead &&& 0x80 = 0 ∧ lead ≠ 0) := by
    rw [isSingle_iff]
    omega
  rw [unitsFrom.eq_def]
  simp only [hsingle, (isLeadOfTwo_iff lead).mpr hlead, (isContinuation_iff low).mpr hlow,
    if_true, if_false, leadOfTwo_eq, payload_eq]

theorem unitsFrom_three (hlead : 0xE0 ≤ lead.toNat ∧ lead.toNat < 0xF0)
    (hmiddle : 0x80 ≤ middle.toNat ∧ middle.toNat < 0xC0)
    (hlow : 0x80 ≤ low.toNat ∧ low.toNat < 0xC0) :
    unitsFrom offset backwards (lead :: middle :: low :: rest) =
      unitsFrom (offset + 3)
        ((lead.toNat % 0x10 * 0x1000 + middle.toNat % 0x40 * 0x40 + low.toNat % 0x40) ::
          backwards) rest := by
  have hsingle : ¬(lead &&& 0x80 = 0 ∧ lead ≠ 0) := by
    rw [isSingle_iff]
    omega
  have htwo : ¬lead &&& 0xE0 = 0xC0 := by
    rw [isLeadOfTwo_iff]
    omega
  rw [unitsFrom.eq_def]
  simp only [hsingle, htwo, (isLeadOfThree_iff lead).mpr hlead,
    (isContinuation_iff middle).mpr hmiddle, (isContinuation_iff low).mpr hlow,
    if_true, if_false, leadOfThree_eq, payload_eq]

/-- The forms in which units can be written.  The same unit may fit several. -/
inductive Form
  | single
  | double
  | triple
  deriving DecidableEq, Repr

namespace Form

def Fits (unit : Nat) : Form → Prop
  | .single => 0 < unit ∧ unit < 0x80
  | .double => unit < 0x800
  | .triple => unit < 0x10000

instance (unit : Nat) : (form : Form) → Decidable (form.Fits unit)
  | .single => inferInstanceAs (Decidable (0 < unit ∧ unit < 0x80))
  | .double => inferInstanceAs (Decidable (unit < 0x800))
  | .triple => inferInstanceAs (Decidable (unit < 0x10000))

/-- The form that modified UTF-8 prescribes for a unit: the shortest that fits. -/
def shortest (unit : Nat) : Form :=
  if 0 < unit ∧ unit < 0x80 then .single else if unit < 0x800 then .double else .triple

def write (unit : Nat) : Form → List UInt8
  | .single => [UInt8.ofNat unit]
  | .double => [UInt8.ofNat (0xC0 + unit / 0x40), UInt8.ofNat (0x80 + unit % 0x40)]
  | .triple =>
      [UInt8.ofNat (0xE0 + unit / 0x1000), UInt8.ofNat (0x80 + unit / 0x40 % 0x40),
        UInt8.ofNat (0x80 + unit % 0x40)]

theorem fits_shortest (hunit : unit < 0x10000) : (shortest unit).Fits unit := by
  unfold shortest
  split
  next hsingle => exact hsingle
  next =>
    split
    next hdouble => exact hdouble
    next => exact hunit

theorem write_shortest (unit : Nat) : (shortest unit).write unit = encodeUnit unit := by
  unfold shortest encodeUnit
  split
  next => rfl
  next => split <;> rfl

end Form

theorem unitsFrom_write {form : Form} (hfits : form.Fits unit) :
    unitsFrom offset backwards (form.write unit ++ rest) =
      unitsFrom (offset + (form.write unit).length) (unit :: backwards) rest := by
  have hlow : (UInt8.ofNat (0x80 + unit % 0x40)).toNat = 0x80 + unit % 0x40 :=
    toNat_ofNat (by omega)
  cases form with
  | single =>
      obtain ⟨hpos, hunit⟩ : 0 < unit ∧ unit < 0x80 := hfits
      have hlead : (UInt8.ofNat unit).toNat = unit := toNat_ofNat (by omega)
      rw [Form.write, List.singleton_append, unitsFrom_single (by omega), hlead]
      rfl
  | double =>
      have hunit : unit < 0x800 := hfits
      have hlead : (UInt8.ofNat (0xC0 + unit / 0x40)).toNat = 0xC0 + unit / 0x40 :=
        toNat_ofNat (by omega)
      have hvalue : (0xC0 + unit / 0x40) % 0x20 * 0x40 + (0x80 + unit % 0x40) % 0x40 = unit := by
        omega
      rw [Form.write, List.cons_append, List.singleton_append,
        unitsFrom_two (by omega) (by omega), hlead, hlow, hvalue]
      rfl
  | triple =>
      have hunit : unit < 0x10000 := hfits
      have hlead : (UInt8.ofNat (0xE0 + unit / 0x1000)).toNat = 0xE0 + unit / 0x1000 :=
        toNat_ofNat (by omega)
      have hmiddle : (UInt8.ofNat (0x80 + unit / 0x40 % 0x40)).toNat =
          0x80 + unit / 0x40 % 0x40 := toNat_ofNat (by omega)
      have hvalue : (0xE0 + unit / 0x1000) % 0x10 * 0x1000 +
          (0x80 + unit / 0x40 % 0x40) % 0x40 * 0x40 + (0x80 + unit % 0x40) % 0x40 = unit := by
        omega
      rw [Form.write, List.cons_append, List.cons_append, List.singleton_append,
        unitsFrom_three (by omega) (by omega) (by omega), hlead, hmiddle, hlow, hvalue]
      rfl

theorem unitsFrom_encodeUnit (hunit : unit < 0x10000) :
    unitsFrom offset backwards (encodeUnit unit ++ rest) =
      unitsFrom (offset + (encodeUnit unit).length) (unit :: backwards) rest := by
  rw [← Form.write_shortest]
  exact unitsFrom_write (Form.fits_shortest hunit)

theorem unitsFrom_flatMap {units : List Nat} (hunits : ∀ unit ∈ units, unit < 0x10000) :
    unitsFrom offset backwards (units.flatMap encodeUnit) = .ok (backwards.reverse ++ units) := by
  induction units generalizing offset backwards with
  | nil => simp [unitsFrom]
  | cons unit others ih =>
      rw [List.forall_mem_cons] at hunits
      rw [List.flatMap_cons, unitsFrom_encodeUnit hunits.1, ih hunits.2]
      simp

theorem decodeUnits_encode (text : String) : decodeUnits (encode text) = .ok text := by
  have hunits : ∀ unit ∈ text.toList.flatMap utf16Units, unit < 0x10000 := by
    intro unit hunit
    obtain ⟨c, -, hc⟩ := List.mem_flatMap.mp hunit
    exact utf16Units_lt hc
  have hencode : encode text = (text.toList.flatMap utf16Units).flatMap encodeUnit := by
    rw [encode, List.flatMap_assoc]
  rw [decodeUnits, hencode, unitsFrom_flatMap hunits]
  simp [ofUtf16?_flatMap]

/-! ## Plain UTF-8 -/

/-- A character whose plain form has neither a zero nor the lead of four bytes has the
same modified form. -/
theorem flatMap_encodeUnit_eq {c : Char}
    (hplain : ∀ byte ∈ String.utf8EncodeChar c, byte ≠ 0 ∧ byte < 0xF0) :
    (utf16Units c).flatMap encodeUnit = String.utf8EncodeChar c := by
  have hchar := toNat_lt c
  have hvalue : c.val.toNat = c.toNat := rfl
  unfold String.utf8EncodeChar at hplain ⊢
  simp only [hvalue] at hplain ⊢
  by_cases hbeyond : 0xFFFF < c.toNat
  · rw [if_neg (by omega), if_neg (by omega), if_neg (by omega)] at hplain
    have hlead := (hplain _ (List.mem_cons_self ..)).2
    rw [UInt8.lt_iff_toNat_lt, toNat_ofNat (by omega)] at hlead
    exact absurd hlead (by simp)
  · have hunits : utf16Units c = [c.toNat] := by
      rw [utf16Units, if_pos (by omega)]
    rw [hunits, List.flatMap_singleton, encodeUnit]
    by_cases hone : c.toNat ≤ 0x7F
    · rw [if_pos hone] at hplain ⊢
      have hnonzero := (hplain _ (List.mem_cons_self ..)).1
      have hpos : 0 < c.toNat := by
        apply Nat.pos_of_ne_zero
        intro hzero
        rw [hzero] at hnonzero
        exact hnonzero rfl
      rw [if_pos ⟨hpos, by omega⟩]
    · rw [if_neg hone, if_neg (by omega)]
      by_cases htwo : c.toNat ≤ 0x7FF
      · have hlead : c.toNat / 64 % 0x20 + 0xC0 = 0xC0 + c.toNat / 0x40 := by omega
        have hlow : c.toNat % 0x40 + 0x80 = 0x80 + c.toNat % 0x40 := by omega
        rw [if_pos htwo, if_pos (by omega), hlead, hlow]
      · have hlead : c.toNat / 4096 % 0x10 + 0xE0 = 0xE0 + c.toNat / 0x1000 := by omega
        have hmiddle : c.toNat / 64 % 0x40 + 0x80 = 0x80 + c.toNat / 0x40 % 0x40 := by omega
        have hlow : c.toNat % 0x40 + 0x80 = 0x80 + c.toNat % 0x40 := by omega
        rw [if_neg htwo, if_neg (by omega), if_pos (by omega), hlead, hmiddle, hlow]

/-- Bytes that are read the short way are the modified form of what is read. -/
theorem encode_of_decodePlain? {bytes : List UInt8} {text : String}
    (hdecode : decodePlain? bytes = some text) : encode text = bytes := by
  unfold decodePlain? at hdecode
  split at hdecode
  next hbytes =>
    have hplain : ∀ byte ∈ bytes, byte ≠ 0 ∧ byte < 0xF0 := by
      simpa [List.all_eq_true] using hbytes
    unfold String.fromUTF8? at hdecode
    split at hdecode
    next hvalid =>
      have hform : text.toList.flatMap String.utf8EncodeChar = bytes := by
        have htext := @String.utf8Encode_toList text
        rw [← Option.some.inj hdecode] at htext ⊢
        have hdata := congrArg (fun encoded : ByteArray => encoded.data.toList) htext
        simpa [List.utf8Encode, String.fromUTF8] using hdata
      rw [← hform] at hplain
      rw [encode, ← hform, List.flatMap_def, List.flatMap_def]
      congr 1
      apply List.map_congr_left
      intro c hc
      apply flatMap_encodeUnit_eq
      intro byte hbyte
      exact hplain byte (List.mem_flatMap.mpr ⟨c, hc, hbyte⟩)
    next => cases hdecode
  next => cases hdecode

/-- The short way gives nothing but what the general way gives. -/
theorem decodeUnits_of_decodePlain? {bytes : List UInt8} {text : String}
    (hdecode : decodePlain? bytes = some text) : decodeUnits bytes = .ok text := by
  rw [← encode_of_decodePlain? hdecode]
  exact decodeUnits_encode text

theorem decode_eq_decodeUnits (bytes : List UInt8) : decode bytes = decodeUnits bytes := by
  unfold decode
  cases hplain : decodePlain? bytes with
  | none => rfl
  | some text => exact (decodeUnits_of_decodePlain? hplain).symm

theorem decode_encode (text : String) : decode (encode text) = .ok text := by
  rw [decode_eq_decodeUnits]
  exact decodeUnits_encode text

/-- Every text is read back, and whether the short way is tried first makes no difference to
any bytes, also not to how they are refused. -/
theorem short_way_invisible (bytes : List UInt8) (text : String) :
    decode (encode text) = .ok text ∧
      (decodePlain? bytes = some text → decodeUnits bytes = .ok text) ∧
      decode bytes = decodeUnits bytes :=
  ⟨decode_encode text, decodeUnits_of_decodePlain?, decode_eq_decodeUnits bytes⟩

theorem short_way_invisible_accented :
    decodePlain? [0xC3, 0xA9, 0x74] = some "ét" ∧
      decodeUnits [0xC3, 0xA9, 0x74] = .ok "ét" := by
  have hplain : decodePlain? [0xC3, 0xA9, 0x74] = some "ét" := by decide +kernel
  exact ⟨hplain, (short_way_invisible [0xC3, 0xA9, 0x74] "ét").2.1 hplain⟩

end ModifiedUtf8

end Forwarding.Text
