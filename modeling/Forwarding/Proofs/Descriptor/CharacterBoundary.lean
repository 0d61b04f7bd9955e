import Forwarding.Proofs.Bytes.Reading
import Forwarding.Proofs.Descriptor.ByteParser
import Forwarding.Proofs.Descriptor.ErrorPosition

/-!
# Boundaries between characters

The characters of a text take up one to four bytes each, and a byte of an ASCII character is
never part of another.  An input, which is what a scanner has left of the characters, starts
at a boundary, and what is sliced out between two boundaries is the characters there.
-/

namespace Forwarding.Descriptor

open Scanner (width width_nil width_cons)

/-! ## Characters in bytes -/

def bytesOf (chars : List Char) : List UInt8 :=
  chars.flatMap String.utf8EncodeChar

theorem length_bytesOf (chars : List Char) : (bytesOf chars).length = width chars := by
  induction chars with
  | nil => rfl
  | cons c rest ih =>
      rw [bytesOf, List.flatMap_cons, List.length_append, String.length_utf8EncodeChar, width_cons]
      exact congrArg _ ih

theorem bytesOf_append (front rest : List Char) :
    bytesOf (front ++ rest) = bytesOf front ++ bytesOf rest :=
  List.flatMap_append

theorem width_append (front rest : List Char) :
    width (front ++ rest) = width front + width rest := by
  simp [width]

theorem toList_toByteArray (text : String) :
    text.toByteArray.data.toList = bytesOf text.toList := by
  have hbytes : (String.ofList text.toList).toByteArray = (bytesOf text.toList).toByteArray :=
    String.toByteArray_ofList
  rw [String.ofList_toList] at hbytes
  rw [hbytes, List.toList_data_toByteArray]

theorem toNat_toUInt8 {c : Char} (hascii : c.toNat < 128) : c.toUInt8.toNat = c.toNat := by
  change c.toNat % 256 = c.toNat
  exact Nat.mod_eq_of_lt (by omega)

theorem utf8EncodeChar_of_ascii {c : Char} (hascii : c.toNat < 128) :
    String.utf8EncodeChar c = [c.toUInt8] := by
  have hle : c.val.toNat ≤ 127 := Nat.le_of_lt_succ hascii
  simp only [String.utf8EncodeChar, if_pos hle]
  rfl

/-- The bytes of a character that is not ASCII could not be such a character. -/
theorem le_of_mem_utf8EncodeChar {c : Char} {byte : UInt8} (hbeyond : 128 ≤ c.toNat)
    (hmem : byte ∈ String.utf8EncodeChar c) : 128 ≤ byte.toNat := by
  have hgt : ¬c.val.toNat ≤ 127 := Nat.not_le.mpr hbeyond
  unfold String.utf8EncodeChar at hmem
  simp only [if_neg hgt] at hmem
  split at hmem
  · simp only [List.mem_cons, List.not_mem_nil, or_false] at hmem
    rcases hmem with rfl | rfl <;> simp <;> omega
  · split at hmem
    · simp only [List.mem_cons, List.not_mem_nil, or_false] at hmem
      rcases hmem with rfl | rfl | rfl <;> simp <;> omega
    · simp only [List.mem_cons, List.not_mem_nil, or_false] at hmem
      rcases hmem with rfl | rfl | rfl | rfl <;> simp <;> omega

/-- No byte of another character is the only byte of an ASCII character. -/
theorem eq_of_mem_utf8EncodeChar {letter c : Char} (hletter : letter.toNat < 128)
    (hmem : letter.toUInt8 ∈ String.utf8EncodeChar c) : c = letter := by
  have hbyte := toNat_toUInt8 hletter
  rcases Nat.lt_or_ge c.toNat 128 with hascii | hbeyond
  · rw [utf8EncodeChar_of_ascii hascii, List.mem_singleton] at hmem
    rw [hmem, toNat_toUInt8 hascii] at hbyte
    exact Char.toNat_inj.mp hbyte
  · have hlarge := le_of_mem_utf8EncodeChar hbeyond hmem
    omega

/-! ## Slices -/

theorem slice?_append (front part rest : String) :
    slice? (front ++ part ++ rest) front.utf8ByteSize
      (front.utf8ByteSize + part.utf8ByteSize) = some part := by
  have hfirst : (⟨front.utf8ByteSize⟩ : String.Pos.Raw).IsValid (front ++ part ++ rest) := by
    apply String.Pos.Raw.isValid_iff_exists_append.mpr
    exact ⟨front, part ++ rest, String.append_assoc .., rfl⟩
  have hlast : (⟨front.utf8ByteSize + part.utf8ByteSize⟩ : String.Pos.Raw).IsValid
      (front ++ part ++ rest) := by
    apply String.Pos.Raw.isValid_iff_exists_append.mpr
    refine ⟨front ++ part, rest, rfl, ?_⟩
    rw [String.rawEndPos, String.utf8ByteSize_append]
  rw [slice?, dif_pos ⟨hfirst, hlast, Nat.le_add_right _ _⟩]
  congr 1
  apply String.toByteArray_inj.mp
  rw [String.toByteArray_extract]
  dsimp only
  rw [String.toByteArray_append, ← String.utf8ByteSize_append,
    ← @String.size_toByteArray (front ++ part), ByteArray.extract_append_size_left,
    String.toByteArray_append]
  apply ByteArray.extract_append_eq_right
  · exact String.size_toByteArray.symm
  · rw [ByteArray.size_append, String.size_toByteArray, String.size_toByteArray]

/-! ## Boundaries -/

/-- Whether an input is what is left of a text behind some of its characters. -/
def Input.LeftOf (text : String) (input : Input) : Prop :=
  ∃ front, text.toList = front ++ input.rest ∧ input.position = width front

/-- Whether a cursor in the bytes of a text is at the boundary where an input begins. -/
structure At (text : String) (input : Input) (c : Cursor) : Prop where
  data : c.data = text.toByteArray.data
  position : c.position = input.position
  left : input.LeftOf text

theorem Input.LeftOf.isValid {text : String} {input : Input} (hleft : input.LeftOf text) :
    (⟨input.position⟩ : String.Pos.Raw).IsValid text := by
  obtain ⟨front, htext, hposition⟩ := hleft
  apply String.Pos.Raw.isValid_iff_exists_append.mpr
  refine ⟨String.ofList front, String.ofList input.rest, ?_, ?_⟩
  · rw [← String.ofList_append, ← htext, String.ofList_toList]
  · rw [String.rawEndPos, utf8ByteSize_ofList, hposition]

theorem at_start (text : String) : At text (.ofString text) (.start text.toByteArray.data) :=
  ⟨rfl, rfl, [], rfl, rfl⟩

variable {text : String} {position : Nat} {ch : Char} {rest : List Char} {c c' : Cursor}

theorem At.rest_eq {input : Input} (hat : At text input c) : c.rest = bytesOf input.rest := by
  obtain ⟨front, htext, hposition⟩ := hat.left
  rw [Cursor.rest, hat.data, hat.position, hposition, toList_toByteArray, htext, bytesOf_append,
    ← length_bytesOf, List.drop_left]

/-- The bytes of the next character lead to the next boundary. -/
theorem At.exists_passes (hat : At text ⟨position, ch :: rest⟩ c) :
    ∃ c', c.Passes (String.utf8EncodeChar ch) c' ∧ At text ⟨position + ch.utf8Size, rest⟩ c' := by
  have hrest : c.rest = String.utf8EncodeChar ch ++ bytesOf rest := hat.rest_eq
  obtain ⟨c', hpasses, -⟩ := Cursor.exists_passes hrest
  obtain ⟨front, htext, hposition⟩ := hat.left
  refine ⟨c', hpasses, hpasses.data.trans hat.data, ?_, front ++ [ch], ?_, ?_⟩
  · rw [hpasses.position, hat.position, String.length_utf8EncodeChar]
  · rw [htext, List.append_assoc, List.singleton_append]
  · rw [width_append, width_cons, width_nil, Nat.add_zero]
    exact congrArg (· + ch.utf8Size) hposition

/-! ## Looking and passing -/

theorem toOption_peek (c : Cursor) : c.peek.toOption = c.rest.head? := by
  rw [Cursor.peek, Cursor.rest, List.head?_drop, Array.getElem?_toList]
  cases c.data[c.position]? with
  | none => rfl
  | some byte => rfl

theorem exists_utf8EncodeChar_eq (ch : Char) :
    ∃ more, String.utf8EncodeChar ch = TypeState.leadByte ch :: more := by
  have hlength := String.length_utf8EncodeChar ch
  rw [TypeState.leadByte]
  cases hbytes : String.utf8EncodeChar ch with
  | nil =>
      rw [hbytes] at hlength
      exact absurd ch.utf8Size_pos (by rw [← hlength]; simp)
  | cons byte more => exact ⟨more, rfl⟩

theorem leadByte_eq_iff (letter : Char) (hletter : letter.toNat < 128) :
    TypeState.leadByte ch = letter.toUInt8 ↔ ch = letter := by
  obtain ⟨more, hbytes⟩ := exists_utf8EncodeChar_eq ch
  constructor
  · intro hlead
    rw [hlead] at hbytes
    exact eq_of_mem_utf8EncodeChar hletter (by rw [hbytes]; exact List.mem_cons_self)
  · rintro rfl
    rw [TypeState.leadByte, utf8EncodeChar_of_ascii hletter]
    rfl

theorem At.peek (hat : At text ⟨position, ch :: rest⟩ c) :
    c.peek.toOption = some (TypeState.leadByte ch) := by
  obtain ⟨more, hbytes⟩ := exists_utf8EncodeChar_eq ch
  rw [toOption_peek, hat.rest_eq, bytesOf, List.flatMap_cons, hbytes]
  rfl

theorem At.peek_end (hat : At text ⟨position, []⟩ c) : c.peek.toOption = none := by
  rw [toOption_peek, hat.rest_eq]
  rfl

theorem bump_of_passes {byte : UInt8} (hpasses : c.Passes [byte] c') :
    ByteParser.bump c = .ok () c' := by
  obtain ⟨data, position, hle⟩ := c'
  obtain ⟨rfl, rfl⟩ : data = c.data ∧ position = c.position + 1 :=
    ⟨hpasses.data, hpasses.position⟩
  simp only [ByteParser.bump, Cursor.advanceBy, dif_pos hle]

/-- An ASCII character is passed in one step. -/
theorem At.bump (hat : At text ⟨position, ch :: rest⟩ c) (hascii : ch.toNat < 128) :
    ∃ c', ByteParser.bump c = .ok () c' ∧ At text ⟨position + ch.utf8Size, rest⟩ c' := by
  obtain ⟨c', hpasses, hnext⟩ := hat.exists_passes
  rw [utf8EncodeChar_of_ascii hascii] at hpasses
  exact ⟨c', bump_of_passes hpasses, hnext⟩

end Forwarding.Descriptor
