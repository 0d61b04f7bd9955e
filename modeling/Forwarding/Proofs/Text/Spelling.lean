import Forwarding.Proofs.Text.ModifiedUtf8

/-!
# What is read as modified UTF-8

Reading accepts more than what is written.  A unit is read in every form that has room
for it, while it is written in the shortest one, so several byte sequences may be read as
one text.  They are told apart by their overlong units: without any, bytes are read as a
text only if they are what is written for it.
-/

namespace Forwarding.Text

/-! ## UTF-16 -/

theorem toNat_ofNat_of_isValidChar {n : Nat} (hvalid : n.isValidChar) :
    (Char.ofNat n).toNat = n := by
  rw [Char.ofNat, dif_pos hvalid]
  rfl

theorem utf16Units_ofNat {unit : Nat} (hunit : unit < 0x10000)
    (hhigh : ¬isHighSurrogate unit = true) (hlow : ¬isLowSurrogate unit = true) :
    utf16Units (Char.ofNat unit) = [unit] := by
  simp only [isHighSurrogate, isLowSurrogate, Bool.and_eq_true, decide_eq_true_eq] at hhigh hlow
  have hvalid : unit.isValidChar := by
    unfold Nat.isValidChar
    omega
  rw [utf16Units, toNat_ofNat_of_isValidChar hvalid, if_pos hunit]

theorem utf16Units_joinSurrogates {high low : Nat} (hhigh : isHighSurrogate high = true)
    (hlow : isLowSurrogate low = true) : utf16Units (joinSurrogates high low) = [high, low] := by
  simp only [isHighSurrogate, isLowSurrogate, Bool.and_eq_true, decide_eq_true_eq] at hhigh hlow
  have hvalid : (0x10000 + (high - 0xD800) * 0x400 + (low - 0xDC00)).isValidChar := by
    unfold Nat.isValidChar
    omega
  have htoNat : (joinSurrogates high low).toNat =
      0x10000 + (high - 0xD800) * 0x400 + (low - 0xDC00) := toNat_ofNat_of_isValidChar hvalid
  have hfirst : 0xD800 + (0x10000 + (high - 0xD800) * 0x400 + (low - 0xDC00) - 0x10000) / 0x400 =
      high := by omega
  have hsecond : 0xDC00 + (0x10000 + (high - 0xD800) * 0x400 + (low - 0xDC00) - 0x10000) % 0x400 =
      low := by omega
  rw [utf16Units, htoNat, if_neg (by omega), hfirst, hsecond]

theorem eq_flatMap_of_ofUtf16? {units : List Nat} {text : List Char}
    (hunits : ∀ unit ∈ units, unit < 0x10000) (htext : ofUtf16? units = some text) :
    units = text.flatMap utf16Units := by
  fun_induction ofUtf16? units generalizing text with
  | case1 =>
      cases htext
      rfl
  | case2 high hhigh low rest hlow ih =>
      obtain ⟨text, hrest, rfl⟩ := Option.map_eq_some_iff.mp htext
      simp only [List.forall_mem_cons] at hunits
      rw [List.flatMap_cons, utf16Units_joinSurrogates hhigh hlow, ← ih hunits.2.2 hrest]
      rfl
  | case3 => cases htext
  | case4 => cases htext
  | case5 => cases htext
  | case6 unit rest hhigh hlow ih =>
      obtain ⟨text, hrest, rfl⟩ := Option.map_eq_some_iff.mp htext
      rw [List.forall_mem_cons] at hunits
      rw [List.flatMap_cons, utf16Units_ofNat hunits.1 hhigh hlow, ← ih hunits.2 hrest]
      rfl

namespace ModifiedUtf8

/-! ## Forms -/

section

variable {lead middle low : UInt8}

theorem write_single (lead : UInt8) : Form.single.write lead.toNat = [lead] := by
  rw [Form.write, UInt8.ofNat_toNat]

theorem write_double (hlead : 0xC0 ≤ lead.toNat ∧ lead.toNat < 0xE0)
    (hlow : 0x80 ≤ low.toNat ∧ low.toNat < 0xC0) :
    Form.double.write (lead.toNat % 0x20 * 0x40 + low.toNat % 0x40) = [lead, low] := by
  have hfirst : 0xC0 + (lead.toNat % 0x20 * 0x40 + low.toNat % 0x40) / 0x40 = lead.toNat := by
    omega
  have hsecond : 0x80 + (lead.toNat % 0x20 * 0x40 + low.toNat % 0x40) % 0x40 = low.toNat := by
    omega
  rw [Form.write, hfirst, hsecond, UInt8.ofNat_toNat, UInt8.ofNat_toNat]

theorem write_triple (hlead : 0xE0 ≤ lead.toNat ∧ lead.toNat < 0xF0)
    (hmiddle : 0x80 ≤ middle.toNat ∧ middle.toNat < 0xC0)
    (hlow : 0x80 ≤ low.toNat ∧ low.toNat < 0xC0) :
    Form.triple.write
        (lead.toNat % 0x10 * 0x1000 + middle.toNat % 0x40 * 0x40 + low.toNat % 0x40) =
      [lead, middle, low] := by
  generalize hunit : lead.toNat % 0x10 * 0x1000 + middle.toNat % 0x40 * 0x40 +
    low.toNat % 0x40 = unit
  have hfirst : 0xE0 + unit / 0x1000 = lead.toNat := by omega
  have hsecond : 0x80 + unit / 0x40 % 0x40 = middle.toNat := by omega
  have hthird : 0x80 + unit % 0x40 = low.toNat := by omega
  rw [Form.write, hfirst, hsecond, hthird, UInt8.ofNat_toNat, UInt8.ofNat_toNat,
    UInt8.ofNat_toNat]

end

/-! ## Spellings -/

/-- A unit in a form that has room for it. -/
structure SpelledUnit where
  unit : Nat
  form : Form
  fits : form.Fits unit

namespace SpelledUnit

def bytes (u : SpelledUnit) : List UInt8 :=
  u.form.write u.unit

/-- Whether a shorter form would do. -/
def IsOverlong (u : SpelledUnit) : Prop :=
  u.form ≠ Form.shortest u.unit

instance (u : SpelledUnit) : Decidable u.IsOverlong :=
  inferInstanceAs (Decidable (u.form ≠ Form.shortest u.unit))

theorem unit_lt (u : SpelledUnit) : u.unit < 0x10000 := by
  obtain ⟨unit, form, hfits⟩ := u
  cases form with
  | single =>
      have hunit : 0 < unit ∧ unit < 0x80 := hfits
      exact Nat.lt_trans hunit.2 (by decide)
  | double =>
      have hunit : unit < 0x800 := hfits
      exact Nat.lt_trans hunit (by decide)
  | triple => exact hfits

theorem bytes_of_not_isOverlong {u : SpelledUnit} (hshort : ¬u.IsOverlong) :
    u.bytes = encodeUnit u.unit := by
  rw [bytes, not_not.mp hshort, Form.write_shortest]

/-- What is written for a unit is shorter than every overlong form of it, and not longer
than any form. -/
theorem length_encodeUnit (u : SpelledUnit) :
    (encodeUnit u.unit).length ≤ u.bytes.length ∧
      (u.IsOverlong → (encodeUnit u.unit).length < u.bytes.length) := by
  obtain ⟨unit, form, hfits⟩ := u
  rw [← Form.write_shortest]
  unfold bytes IsOverlong Form.shortest
  dsimp only
  cases form with
  | single =>
      have hsingle : 0 < unit ∧ unit < 0x80 := hfits
      rw [if_pos hsingle]
      exact ⟨Nat.le_refl _, fun hne => absurd rfl hne⟩
  | double =>
      have hdouble : unit < 0x800 := hfits
      rw [if_pos hdouble]
      split <;> simp [Form.write]
  | triple =>
      split
      next => simp [Form.write]
      next => split <;> simp [Form.write]

end SpelledUnit

/-- Units, each in some form that has room for it. -/
abbrev Spelling := List SpelledUnit

namespace Spelling

def bytes (spelling : Spelling) : List UInt8 :=
  spelling.flatMap SpelledUnit.bytes

def units (spelling : Spelling) : List Nat :=
  spelling.map SpelledUnit.unit

theorem unitsFrom_bytes (spelling : Spelling) (offset : Nat) (backwards : List Nat) :
    unitsFrom offset backwards spelling.bytes = .ok (backwards.reverse ++ spelling.units) := by
  induction spelling generalizing offset backwards with
  | nil => simp [bytes, units, unitsFrom]
  | cons u rest ih =>
      have hbytes : bytes (u :: rest) = u.form.write u.unit ++ bytes rest := rfl
      rw [hbytes, unitsFrom_write u.fits, ih]
      simp [units]

theorem exists_cons (u : SpelledUnit) {rest : List UInt8} {backwards units : List Nat}
    (hrest : ∃ spelling : Spelling, spelling.bytes = rest ∧
      units = (u.unit :: backwards).reverse ++ spelling.units) :
    ∃ spelling : Spelling, spelling.bytes = u.bytes ++ rest ∧
      units = backwards.reverse ++ spelling.units := by
  obtain ⟨spelling, rfl, rfl⟩ := hrest
  exact ⟨u :: spelling, rfl, by simp [Spelling.units]⟩

/-- Bytes that are read spell what they are read as. -/
theorem exists_of_unitsFrom {bytes : List UInt8} {offset : Nat} {backwards units : List Nat}
    (hunits : unitsFrom offset backwards bytes = .ok units) :
    ∃ spelling : Spelling, spelling.bytes = bytes ∧
      units = backwards.reverse ++ spelling.units := by
  fun_induction unitsFrom offset backwards bytes with
  | case1 offset backwards =>
      cases hunits
      exact ⟨[], rfl, by simp [Spelling.units]⟩
  | case2 offset backwards lead rest hsingle ih =>
      rw [isSingle_iff] at hsingle
      have hbytes := write_single lead
      have hspelled := exists_cons ⟨lead.toNat, .single, hsingle⟩ (ih hunits)
      rwa [SpelledUnit.bytes, hbytes] at hspelled
  | case4 offset backwards lead _ hdouble low rest hlow unit ih =>
      rw [isLeadOfTwo_iff] at hdouble
      rw [isContinuation_iff] at hlow
      have hunit : unit = lead.toNat % 0x20 * 0x40 + low.toNat % 0x40 := by
        rw [← leadOfTwo_eq, ← payload_eq]
      have hfits : Form.double.Fits unit := by
        change unit < 0x800
        omega
      have hbytes : Form.double.write unit = [lead, low] := by
        rw [hunit]
        exact write_double hdouble hlow
      have hspelled := exists_cons ⟨unit, .double, hfits⟩ (ih hunits)
      rwa [SpelledUnit.bytes, hbytes] at hspelled
  | case9 offset backwards lead _ _ htriple middle low rest hmiddle hlow unit ih =>
      rw [isLeadOfThree_iff] at htriple
      rw [isContinuation_iff] at hmiddle hlow
      have hunit : unit = lead.toNat % 0x10 * 0x1000 + middle.toNat % 0x40 * 0x40 +
          low.toNat % 0x40 := by
        rw [← leadOfThree_eq, ← payload_eq, ← payload_eq]
      have hfits : Form.triple.Fits unit := by
        change unit < 0x10000
        omega
      have hbytes : Form.triple.write unit = [lead, middle, low] := by
        rw [hunit]
        exact write_triple htriple hmiddle hlow
      have hspelled := exists_cons ⟨unit, .triple, hfits⟩ (ih hunits)
      rwa [SpelledUnit.bytes, hbytes] at hspelled
  | _ => cases hunits

theorem unitsFrom_eq_ok_iff {bytes : List UInt8} {units : List Nat} :
    unitsFrom 0 [] bytes = .ok units ↔
      ∃ spelling : Spelling, spelling.bytes = bytes ∧ spelling.units = units := by
  constructor
  · intro hunits
    obtain ⟨spelling, hbytes, heq⟩ := exists_of_unitsFrom hunits
    exact ⟨spelling, hbytes, heq.symm⟩
  · rintro ⟨spelling, rfl, rfl⟩
    exact unitsFrom_bytes spelling 0 []

theorem bytes_eq_of_short {spelling : Spelling} (hshort : ∀ u ∈ spelling, ¬u.IsOverlong) :
    spelling.bytes = spelling.units.flatMap encodeUnit := by
  induction spelling with
  | nil => rfl
  | cons u rest ih =>
      rw [List.forall_mem_cons] at hshort
      have hbytes : bytes (u :: rest) = u.bytes ++ bytes rest := rfl
      have hunits : units (u :: rest) = u.unit :: units rest := rfl
      rw [hbytes, hunits, List.flatMap_cons, SpelledUnit.bytes_of_not_isOverlong hshort.1,
        ih hshort.2]

/-- Overlong units make a spelling longer than what is written for its units. -/
theorem length_flatMap_encodeUnit (spelling : Spelling) :
    (spelling.units.flatMap encodeUnit).length ≤ spelling.bytes.length ∧
      ((∃ u ∈ spelling, u.IsOverlong) →
        (spelling.units.flatMap encodeUnit).length < spelling.bytes.length) := by
  induction spelling with
  | nil => exact ⟨Nat.le_refl _, fun ⟨_, hu, _⟩ => absurd hu List.not_mem_nil⟩
  | cons u rest ih =>
      obtain ⟨hle, hlt⟩ := u.length_encodeUnit
      have hbytes : (bytes (u :: rest)).length = u.bytes.length + (bytes rest).length :=
        List.length_append
      have hunits : ((units (u :: rest)).flatMap encodeUnit).length =
          (encodeUnit u.unit).length + ((units rest).flatMap encodeUnit).length :=
        List.length_append
      rw [hbytes, hunits]
      refine ⟨Nat.add_le_add hle ih.1, ?_⟩
      rintro ⟨other, hother, hoverlong⟩
      rcases List.mem_cons.mp hother with rfl | hother
      · exact Nat.add_lt_add_of_lt_of_le (hlt hoverlong) ih.1
      · exact Nat.add_lt_add_of_le_of_lt hle (ih.2 ⟨other, hother, hoverlong⟩)

theorem unit_lt {spelling : Spelling} : ∀ unit ∈ spelling.units, unit < 0x10000 := by
  intro unit hunit
  obtain ⟨u, -, rfl⟩ := List.mem_map.mp hunit
  exact u.unit_lt

end Spelling

/-! ## Texts -/

def utf16 (text : String) : List Nat :=
  text.toList.flatMap utf16Units

/-- Whether the bytes spell the text, in whatever forms. -/
def Spells (bytes : List UInt8) (text : String) : Prop :=
  ∃ spelling : Spelling, spelling.bytes = bytes ∧ spelling.units = utf16 text

/-- Whether the bytes spell something and have an overlong unit in it. -/
def HasOverlong (bytes : List UInt8) : Prop :=
  ∃ spelling : Spelling, spelling.bytes = bytes ∧ ∃ u ∈ spelling, u.IsOverlong

theorem encode_eq (text : String) : encode text = (utf16 text).flatMap encodeUnit := by
  rw [encode, utf16, List.flatMap_assoc]

theorem decodeUnits_eq_ok_iff {bytes : List UInt8} {text : String} :
    decodeUnits bytes = .ok text ↔ Spells bytes text := by
  constructor
  · intro hdecode
    unfold decodeUnits at hdecode
    split at hdecode
    next => cases hdecode
    next units hunits =>
      split at hdecode
      next characters htext =>
        cases hdecode
        obtain ⟨spelling, hbytes, rfl⟩ := Spelling.unitsFrom_eq_ok_iff.mp hunits
        refine ⟨spelling, hbytes, ?_⟩
        rw [eq_flatMap_of_ofUtf16? Spelling.unit_lt htext, utf16, String.toList_ofList]
      next => cases hdecode
  · intro hspells
    have hunits := Spelling.unitsFrom_eq_ok_iff.mpr hspells
    unfold decodeUnits
    rw [hunits]
    dsimp only
    rw [utf16, ofUtf16?_flatMap]
    dsimp only
    rw [String.ofList_toList]

theorem decode_eq_ok_iff {bytes : List UInt8} {text : String} :
    decode bytes = .ok text ↔ Spells bytes text := by
  rw [decode_eq_decodeUnits]
  exact decodeUnits_eq_ok_iff

theorem Spells.eq_encode_iff {bytes : List UInt8} {text : String} (hspells : Spells bytes text) :
    bytes = encode text ↔ ¬HasOverlong bytes := by
  have hunits := Spelling.unitsFrom_eq_ok_iff.mpr hspells
  rw [encode_eq]
  constructor
  · rintro hencode ⟨spelling, rfl, hoverlong⟩
    -- All spellings of the bytes have the same units, and the text's are no overlong ones.
    have hsame : spelling.units = utf16 text := by
      have hread := Spelling.unitsFrom_bytes spelling 0 []
      rw [hunits] at hread
      exact (Except.ok.inj hread).symm
    have hlonger := spelling.length_flatMap_encodeUnit.2 hoverlong
    rw [hsame, ← hencode] at hlonger
    exact Nat.lt_irrefl _ hlonger
  · intro hshort
    obtain ⟨spelling, rfl, hsame⟩ := hspells
    rw [← hsame]
    refine Spelling.bytes_eq_of_short fun u hu hoverlong => ?_
    exact hshort ⟨spelling, rfl, u, hu, hoverlong⟩

/-- Bytes are read as a text if and only if they spell it, and they are what is written for
it if and only if no unit is overlong.  Everything else is malformed. -/
theorem spelled_read (bytes : List UInt8) (text : String) :
    (decode bytes = .ok text ↔ Spells bytes text) ∧
      (decode bytes = .ok text → (bytes = encode text ↔ ¬HasOverlong bytes)) ∧
      (∀ other, ¬HasOverlong bytes → ¬HasOverlong other → decode bytes = .ok text →
        decode other = .ok text → bytes = other) ∧
      ((∀ any, ¬Spells bytes any) →
        ∃ cause, Error.ofMalformation (decode bytes) = .error (.malformed cause)) := by
  have hencode {bytes : List UInt8} (hdecode : decode bytes = .ok text) :
      bytes = encode text ↔ ¬HasOverlong bytes := (decode_eq_ok_iff.mp hdecode).eq_encode_iff
  refine ⟨decode_eq_ok_iff, hencode, ?_, ?_⟩
  · intro other hshort hshort' hdecode hdecode'
    have hother := (hencode hdecode').mpr hshort'
    rw [(hencode hdecode).mpr hshort, hother]
  · intro hnone
    cases hdecode : decode bytes with
    | ok any => exact absurd (decode_eq_ok_iff.mp hdecode) (hnone any)
    | error cause => exact ⟨cause, rfl⟩

/-- The letter `A` in two bytes. -/
def overlongLetter : Spelling :=
  [⟨0x41, .double, by decide⟩]

theorem overlongLetter_spells : Spells [0xC1, 0x81] "A" :=
  ⟨overlongLetter, by decide, by decide⟩

theorem letter_spells : Spells [0x41] "A" :=
  ⟨[⟨0x41, .single, by decide⟩], by decide, by decide⟩

theorem not_spells_lone_surrogate (text : String) : ¬Spells [0xED, 0xA0, 0xBD] text := by
  have hcomputed : (decode [0xED, 0xA0, 0xBD]).toOption = none := by decide +kernel
  intro hspells
  rw [decode_eq_ok_iff.mpr hspells] at hcomputed
  cases hcomputed

/-- One letter in two ways, of which only one is written, and a surrogate without its
partner. -/
theorem spelled_read_letter :
    decode [0xC1, 0x81] = .ok "A" ∧ HasOverlong [0xC1, 0x81] ∧
      decode [0x41] = .ok "A" ∧ ¬HasOverlong [0x41] ∧
      (∀ other, ¬HasOverlong other → decode other = .ok "A" → [0x41] = other) ∧
      ∃ cause, Error.ofMalformation (decode [0xED, 0xA0, 0xBD]) =
        .error (.malformed cause) := by
  obtain ⟨hoverlong, hencoded, -, -⟩ := spelled_read [0xC1, 0x81] "A"
  obtain ⟨hletter, hencoded', hunique, -⟩ := spelled_read [0x41] "A"
  have hreads := hoverlong.mpr overlongLetter_spells
  have hreads' := hletter.mpr letter_spells
  have hshort : ¬HasOverlong [0x41] := (hencoded' hreads').mp (by decide)
  refine ⟨hreads, ?_, hreads', hshort, fun other hother hread => ?_, ?_⟩
  · have hdifferent : [0xC1, 0x81] ≠ encode "A" := by decide
    exact not_not.mp fun hnone => hdifferent ((hencoded hreads).mpr hnone)
  · exact hunique other hshort hother hreads' hread
  · exact (spelled_read [0xED, 0xA0, 0xBD] "").2.2.2 not_spells_lone_surrogate

/-- So not all that is read is what is written for the text, and two byte sequences may be
read as one text. -/
theorem not_always_encoded :
    ¬(∀ bytes text, decode bytes = .ok text → bytes = encode text) ∧
      ¬∀ bytes other text, decode bytes = .ok text → decode other = .ok text → bytes = other := by
  have hoverlong := decode_eq_ok_iff.mpr overlongLetter_spells
  have hletter := decode_eq_ok_iff.mpr letter_spells
  constructor
  · intro hall
    have hencoded := hall _ _ hoverlong
    revert hencoded
    decide
  · intro hall
    have hsame := hall _ _ _ hoverlong hletter
    revert hsame
    decide

end ModifiedUtf8

end Forwarding.Text
