import Forwarding.Proofs.Descriptor.CharacterBoundary

/-!
# Types in bytes and in characters

A parser of bytes follows a scanner if it ends the same way, at the boundary where that one
stops.  In a class name the parser steps through the bytes of a character one by one and so
leaves the boundaries; it can do so since no byte but the first of an ASCII character decides
anything.  What it keeps of a name are two positions; `ReadName` says which characters of the
scanner they stand for.
-/

namespace Forwarding.Descriptor

open Scanner (width width_nil width_cons)
open ByteParser

variable {α β : Type} {text : String} {position : Nat} {ch : Char} {rest : List Char}
  {c c' : Cursor}

theorem Scanner.run_cons {σ : Type} {scanner : Scanner σ α} {state : σ}
    (hwaits : scanner.result? state = none) (position : Nat) (ch : Char) (rest : List Char) :
    scanner.run state position (ch :: rest) =
      match scanner.step state ch with
      | .ok next => scanner.run next (position + ch.utf8Size) rest
      | .error fault => (.error fault, ⟨position, ch :: rest⟩) := by
  cases hstep : scanner.step state ch <;> simp only [Scanner.run, hwaits, hstep]

/-- Whether a parser of bytes ends as a scanner does, at the boundary where that one stops. -/
def Follows (text : String) (outcome : EStateM.Result Stop Cursor α) :
    Except Fault α × Input → Prop
  | (.ok value, stop) => ∃ c, outcome = .ok value c ∧ At text stop c
  | (.error fault, stop) =>
      ∃ c, outcome = .error (.failed (.malformedDescriptor ⟨stop.position, fault⟩)) c ∧
        At text stop c

theorem follows_refuse {input : Input} (hat : At text input c) (fault : Fault) :
    Follows text (refuse c.position fault c : EStateM.Result Stop Cursor α)
      (.error fault, input) := by
  rw [hat.position]
  exact ⟨c, rfl, hat⟩

/-! ## Class names -/

/-- What has been read of a class name that begins at one position and whose last segment
begins at another. -/
structure ReadName (text : String) (start segment : Nat) (backwards : List Char)
    (input : Input) : Prop where
  taken : ∃ front name, text.toList = front ++ (name ++ input.rest) ∧ width front = start ∧
    start + width name = input.position ∧
    backwards = (name.map fun c => if c = '/' then '.' else c).reverse
  last : segment + width (backwards.takeWhile (· ≠ '.')) = input.position

theorem width_eq_zero_iff {chars : List Char} : width chars = 0 ↔ chars = [] := by
  cases chars with
  | nil => simp
  | cons c rest =>
      have hpos := c.utf8Size_pos
      simp only [width_cons, reduceCtorEq, iff_false]
      omega

variable {start segment : Nat} {backwards : List Char} {input : Input}

theorem ReadName.position_eq_start_iff (hname : ReadName text start segment backwards input) :
    input.position = start ↔ backwards.isEmpty = true := by
  obtain ⟨front, name, -, -, hposition, rfl⟩ := hname.taken
  rw [← hposition, List.isEmpty_reverse, List.isEmpty_map, List.isEmpty_iff, ← width_eq_zero_iff]
  omega

theorem ReadName.position_eq_segment_iff (hname : ReadName text start segment backwards input) :
    input.position = segment ↔ TypeState.segmentEmpty backwards = true := by
  have hempty : backwards.takeWhile (· ≠ '.') = [] ↔ TypeState.segmentEmpty backwards = true := by
    cases backwards with
    | nil => simp [TypeState.segmentEmpty]
    | cons c earlier => by_cases hdot : c = '.' <;> simp [TypeState.segmentEmpty, hdot]
  rw [← hname.last, ← hempty, ← width_eq_zero_iff]
  omega

theorem ReadName.slice? (hname : ReadName text start segment backwards input) :
    ∃ part, slice? text start input.position = some part ∧
      dotted part = String.ofList backwards.reverse := by
  obtain ⟨front, name, htext, rfl, hposition, rfl⟩ := hname.taken
  have hslice := slice?_append (String.ofList front) (String.ofList name) (String.ofList input.rest)
  rw [utf8ByteSize_ofList, utf8ByteSize_ofList, hposition, String.append_assoc,
    ← String.ofList_append, ← String.ofList_append, ← htext, String.ofList_toList] at hslice
  refine ⟨_, hslice, ?_⟩
  apply String.toList_injective
  simp [dotted]

theorem ReadName.taken_next (hname : ReadName text start segment backwards ⟨position, ch :: rest⟩) :
    ∃ front name, text.toList = front ++ (name ++ rest) ∧ width front = start ∧
      start + width name = position + ch.utf8Size ∧
      (if ch = '/' then '.' else ch) :: backwards =
        (name.map fun c => if c = '/' then '.' else c).reverse := by
  obtain ⟨front, name, htext, hstart, hposition, rfl⟩ := hname.taken
  refine ⟨front, name ++ [ch], ?_, hstart, ?_, ?_⟩
  · rw [htext, List.append_assoc, List.singleton_append]
  · rw [width_append, width_cons, width_nil, Nat.add_zero, ← Nat.add_assoc, hposition]
  · rw [List.map_append, List.reverse_append, List.map_singleton, List.reverse_singleton,
      List.singleton_append]

theorem ReadName.letter (hname : ReadName text start segment backwards ⟨position, ch :: rest⟩)
    (hordinary : ch ∉ [';', '/', '.', '[']) :
    ReadName text start segment (ch :: backwards) ⟨position + ch.utf8Size, rest⟩ where
  taken := by
    have hslash : ch ≠ '/' := fun hch => hordinary (by simp [hch])
    simpa only [if_neg hslash] using hname.taken_next
  last := by
    have hlast := hname.last
    have hdot : ch ≠ '.' := fun hch => hordinary (by simp [hch])
    dsimp only at hlast ⊢
    rw [List.takeWhile_cons_of_pos (by simpa using hdot), width_cons]
    omega

/-- A slash has one byte, behind which the next segment begins. -/
theorem ReadName.slash (hname : ReadName text start segment backwards ⟨position, '/' :: rest⟩) :
    ReadName text start (position + 1) ('.' :: backwards) ⟨position + 1, rest⟩ where
  taken := hname.taken_next
  last := by simp

theorem readName_start (hleft : input.LeftOf text) :
    ReadName text input.position input.position [] input where
  taken := by
    obtain ⟨front, htext, hposition⟩ := hleft
    exact ⟨front, [], htext, hposition.symm, rfl, rfl⟩
  last := rfl

theorem slice_of_slice? {first last : Nat} {part : String}
    (hslice : Descriptor.slice? text first last = some part) :
    slice text first last c = .ok part c := by
  rw [slice, hslice]
  rfl

theorem className_eq (text : String) (start segment : Nat) (c : Cursor) :
    className text start segment c =
      match nameByte start segment c.position c.peek.toOption with
      | .error fault => refuse c.position fault c
      | .ok none => (do bump; return dotted (← slice text start c.position)) c
      | .ok (some segment') => (bump >>= fun _ => className text start segment') c := by
  rw [className]
  cases nameByte start segment c.position c.peek.toOption with
  | error fault => rfl
  | ok next =>
      cases next with
      | none => rfl
      | some segment' =>
          dsimp only
          split
          next hbump => rw [bind_of_ok hbump]
          next hbump => exact (bind_eq_error.mpr (.inl hbump)).symm

theorem className_of_error {fault : Fault}
    (hbyte : nameByte start segment c.position c.peek.toOption = .error fault) :
    className text start segment c = refuse c.position fault c := by
  rw [className_eq, hbyte]

theorem className_of_end {name : String}
    (hbyte : nameByte start segment c.position c.peek.toOption = .ok none)
    (hbump : bump c = .ok () c')
    (hslice : Descriptor.slice? text start c.position = some name) :
    className text start segment c = .ok (dotted name) c' := by
  rw [className_eq, hbyte]
  dsimp only
  rw [bind_of_ok hbump, bind_of_ok (slice_of_slice? hslice)]
  rfl

theorem className_of_next {segment' : Nat}
    (hbyte : nameByte start segment c.position c.peek.toOption = .ok (some segment'))
    (hbump : bump c = .ok () c') :
    className text start segment c = className text start segment' c' := by
  rw [className_eq, hbyte]
  exact bind_of_ok hbump

/-- Whether a byte of a class name only goes on with it. -/
def IsOrdinary (byte : UInt8) : Prop :=
  byte ≠ ';'.toUInt8 ∧ byte ≠ '/'.toUInt8 ∧ byte ≠ '.'.toUInt8 ∧ byte ≠ '['.toUInt8

theorem isOrdinary_of_mem {byte : UInt8} (hordinary : ch ∉ [';', '/', '.', '['])
    (hmem : byte ∈ String.utf8EncodeChar ch) : IsOrdinary byte := by
  simp only [List.mem_cons, List.not_mem_nil, or_false, not_or] at hordinary
  obtain ⟨hend, hslash, hdot, hbracket⟩ := hordinary
  refine ⟨?_, ?_, ?_, ?_⟩ <;> rintro rfl
  · exact hend (eq_of_mem_utf8EncodeChar (by decide) hmem)
  · exact hslash (eq_of_mem_utf8EncodeChar (by decide) hmem)
  · exact hdot (eq_of_mem_utf8EncodeChar (by decide) hmem)
  · exact hbracket (eq_of_mem_utf8EncodeChar (by decide) hmem)

/-- All bytes of an ordinary character are passed, though no character begins at the later ones. -/
theorem className_of_passes {bytes : List UInt8} (hpasses : c.Passes bytes c')
    (hordinary : ∀ byte ∈ bytes, IsOrdinary byte) :
    className text start segment c = className text start segment c' := by
  induction bytes generalizing c with
  | nil => rw [Cursor.passes_nil_iff.mp hpasses]
  | cons byte bytes ih =>
      rw [List.forall_mem_cons] at hordinary
      obtain ⟨⟨hend, hslash, hdot, hbracket⟩, hothers⟩ := hordinary
      -- Between two of the bytes the cursor is at no boundary, so only the bytes are followed.
      have hsplit : c.Passes ([byte] ++ bytes) c' := hpasses
      obtain ⟨c₁, hbyte, hrest⟩ := Cursor.passes_append_iff.mp hsplit
      have hpeek : c.peek.toOption = some byte := by
        rw [toOption_peek, hbyte.rest]
        rfl
      have hnext : nameByte start segment c.position c.peek.toOption = .ok (some segment) := by
        rw [hpeek, nameByte, if_neg hend, if_neg hslash, if_neg (by simp [hdot, hbracket])]
      rw [className_of_next hnext (bump_of_passes hbyte)]
      exact ih hrest hothers

/-- What a class name is read as, with dimensions in front of it. -/
def objectType (text : String) (dimensions start segment : Nat) : ByteParser FieldType := do
  return ⟨dimensions, .object (← className text start segment)⟩

theorem objectType_congr {dimensions segment' : Nat}
    (hname : className text start segment c = className text start segment' c') :
    objectType text dimensions start segment c = objectType text dimensions start segment' c' := by
  change EStateM.bind _ _ c = EStateM.bind _ _ c'
  unfold EStateM.bind
  rw [hname]

theorem nameByte_leadByte (start segment position : Nat) (ch : Char) :
    nameByte start segment position (some (TypeState.leadByte ch)) =
      if ch = ';' then
        if position = start then .error .emptyClassName
        else if position = segment then .error .emptySegment
        else .ok none
      else if ch = '/' then
        if position = segment then .error .emptySegment else .ok (some (position + 1))
      else if ch = '.' ∨ ch = '[' then .error (.illegalInClassName ch)
      else .ok (some segment) := by
  have hillegal : ch = '.' ∨ ch = '[' → Char.ofNat (TypeState.leadByte ch).toNat = ch := by
    rintro (rfl | rfl) <;> rfl
  simp only [nameByte, leadByte_eq_iff ';' (by decide),
    leadByte_eq_iff '/' (by decide), leadByte_eq_iff '.' (by decide),
    leadByte_eq_iff '[' (by decide)]
  split
  next => rfl
  next =>
    split
    next => rfl
    next =>
      split
      next hchar => rw [hillegal hchar]
      next => rfl

theorem nameByte_eq (dimensions : Nat) (hat : At text ⟨position, ch :: rest⟩ c)
    (hname : ReadName text start segment backwards ⟨position, ch :: rest⟩) :
    nameByte start segment c.position c.peek.toOption =
      (TypeState.stepClassName dimensions backwards ch).map fun _ =>
        if ch = ';' then none else some (if ch = '/' then c.position + 1 else segment) := by
  have hstart : c.position = start ↔ backwards.isEmpty = true := by
    rw [hat.position]
    exact hname.position_eq_start_iff
  have hsegment : c.position = segment ↔ TypeState.segmentEmpty backwards = true := by
    rw [hat.position]
    exact hname.position_eq_segment_iff
  rw [hat.peek, nameByte_leadByte, TypeState.stepClassName]
  simp only [hstart, hsegment]
  split
  next =>
    split
    next => rfl
    next => split <;> rfl
  next =>
    split
    next => split <;> rfl
    next => split <;> rfl

/-- A class name ends, goes on with a new segment or goes on with the one it is in. -/
theorem TypeState.stepClassName_cases {dimensions : Nat} {next : TypeState}
    (hstep : TypeState.stepClassName dimensions backwards ch = .ok next) :
    (ch = ';' ∧ next = .complete ⟨dimensions, .object (String.ofList backwards.reverse)⟩) ∨
      (ch = '/' ∧ next = .className dimensions ('.' :: backwards)) ∨
      (ch ∉ [';', '/', '.', '['] ∧ next = .className dimensions (ch :: backwards)) := by
  unfold TypeState.stepClassName at hstep
  split at hstep
  next hend =>
    split at hstep
    · cases hstep
    · split at hstep
      · cases hstep
      · cases hstep
        exact .inl ⟨hend, rfl⟩
  next hend =>
    split at hstep
    next hslash =>
      split at hstep
      · cases hstep
      · cases hstep
        exact .inr (.inl ⟨hslash, rfl⟩)
    next hslash =>
      split at hstep
      next => cases hstep
      next hlegal =>
        cases hstep
        rw [not_or] at hlegal
        exact .inr (.inr ⟨by simp [hend, hslash, hlegal], rfl⟩)

theorem follows_objectType (dimensions : Nat) (hat : At text ⟨position, rest⟩ c)
    (hname : ReadName text start segment backwards ⟨position, rest⟩) :
    Follows text (objectType text dimensions start segment c)
      (typeScanner.run (.className dimensions backwards) position rest) := by
  induction rest generalizing position segment backwards c with
  | nil =>
      have hbyte : nameByte start segment c.position c.peek.toOption =
          .error .unterminatedClassName := by
        rw [hat.peek_end]
        rfl
      rw [objectType, bind_congr_left (className_of_error hbyte)]
      exact follows_refuse hat .unterminatedClassName
  | cons ch rest ih =>
      have hbyte := nameByte_eq dimensions hat hname
      have hstep : typeScanner.step (.className dimensions backwards) ch =
          TypeState.stepClassName dimensions backwards ch := rfl
      rw [Scanner.run_cons rfl, hstep]
      cases hnext : TypeState.stepClassName dimensions backwards ch with
      | error fault =>
          rw [hnext] at hbyte
          rw [objectType, bind_congr_left (className_of_error hbyte)]
          exact follows_refuse hat fault
      | ok next =>
          rw [hnext] at hbyte
          obtain ⟨rfl, rfl⟩ | ⟨rfl, rfl⟩ | ⟨hordinary, rfl⟩ := TypeState.stepClassName_cases hnext
          · obtain ⟨c', hbump, hend⟩ := hat.bump (by decide)
            obtain ⟨part, hslice, hpart⟩ := hname.slice?
            rw [← hat.position] at hslice
            rw [objectType, bind_of_ok (className_of_end hbyte hbump hslice), hpart]
            dsimp only
            rw [Scanner.run_of_result rfl]
            exact ⟨c', rfl, hend⟩
          · obtain ⟨c', hbump, hslash⟩ := hat.bump (by decide)
            rw [objectType_congr (className_of_next hbyte hbump), hat.position]
            exact ih hslash hname.slash
          · obtain ⟨c', hpasses, hletter⟩ := hat.exists_passes
            rw [objectType_congr (className_of_passes hpasses fun byte hmem =>
              isOrdinary_of_mem hordinary hmem)]
            exact ih hletter (hname.letter hordinary)

/-! ## Types -/

theorem toNat_charOfByte (byte : UInt8) : (Char.ofNat byte.toNat).toNat = byte.toNat := by
  revert byte
  exact forall_byte (by decide +kernel)

/-- The first byte of a character is the letter of a base type only if the character is. -/
theorem ofCode?_leadByte (ch : Char) :
    BaseType.ofCode? (Char.ofNat (TypeState.leadByte ch).toNat) = BaseType.ofCode? ch := by
  have hiff : ∀ letter base, BaseType.ofCode? letter = some base ↔ base.code = letter := by
    intro letter base
    constructor
    · exact BaseType.code_of_ofCode?
    · rintro rfl
      exact BaseType.ofCode?_code base
  apply Option.ext
  intro base
  have hascii : base.code.toNat < 128 := by cases base <;> decide
  have hbyte : Char.ofNat (TypeState.leadByte ch).toNat = base.code ↔
      TypeState.leadByte ch = base.code.toUInt8 := by
    rw [← Char.toNat_inj, toNat_charOfByte, ← UInt8.toNat_inj, toNat_toUInt8 hascii]
  rw [hiff, hiff, eq_comm, hbyte, leadByte_eq_iff base.code hascii, eq_comm]

theorem peek_eq (c : Cursor) : ByteParser.peek c = .ok c.peek.toOption c := rfl

theorem position_eq (c : Cursor) : ByteParser.position c = .ok c.position c := rfl

theorem follows_element {dimensions : Nat} (hat : At text ⟨position, rest⟩ c)
    (hbracket : rest.head? ≠ some '[') :
    Follows text (element text dimensions c)
      (typeScanner.run (.brackets dimensions) position rest) := by
  rw [element, bind_of_ok (peek_eq c)]
  cases rest with
  | nil =>
      rw [hat.peek_end]
      exact follows_refuse hat .typeExpected
  | cons ch rest =>
      have hother : ch ≠ '[' := by simpa using hbracket
      have hstep : typeScanner.step (.brackets dimensions) ch =
          TypeState.stepBrackets dimensions ch := rfl
      rw [hat.peek, Scanner.run_cons rfl, hstep, TypeState.stepBrackets, if_neg hother]
      simp only [leadByte_eq_iff 'L' (by decide),
        leadByte_eq_iff 'V' (by decide), ofCode?_leadByte]
      split
      next hclass =>
        obtain ⟨c', hbump, hnext⟩ := hat.bump (by rw [hclass]; decide)
        rw [bind_of_ok hbump, bind_of_ok (position_eq c')]
        refine follows_objectType dimensions hnext ?_
        rw [hnext.position]
        exact readName_start hnext.left
      next =>
        split
        next => exact follows_refuse hat .misplacedVoid
        next =>
          cases hbase : BaseType.ofCode? ch with
          | none => exact follows_refuse hat (.unknownCode (TypeState.leadByte ch))
          | some base =>
              have hascii : ch.toNat < 128 := by
                rw [← BaseType.code_of_ofCode? hbase]
                cases base <;> decide
              obtain ⟨c', hbump, hnext⟩ := hat.bump hascii
              dsimp only
              rw [bind_of_ok hbump, Scanner.run_of_result rfl]
              exact ⟨c', rfl, hnext⟩

theorem follows_fieldTypeFrom {dimensions : Nat} (hat : At text ⟨position, rest⟩ c) :
    Follows text (fieldTypeFrom text dimensions c)
      (typeScanner.run (.brackets dimensions) position rest) := by
  induction rest generalizing position dimensions c with
  | nil =>
      rw [fieldTypeFrom, bind_of_ok (peek_eq c), hat.peek_end, if_neg (by simp)]
      exact follows_element hat (by simp)
  | cons ch rest ih =>
      rw [fieldTypeFrom, bind_of_ok (peek_eq c), hat.peek]
      simp only [Option.some.injEq, leadByte_eq_iff '[' (by decide)]
      by_cases hbracket : ch = '['
      · have hstep : typeScanner.step (.brackets dimensions) ch =
            TypeState.stepBrackets dimensions ch := rfl
        rw [if_pos hbracket, Scanner.run_cons rfl, hstep, TypeState.stepBrackets, if_pos hbracket]
        split
        next =>
          obtain ⟨c', hbump, hnext⟩ := hat.bump (by rw [hbracket]; decide)
          rw [bind_of_ok hbump]
          exact ih hnext
        next => exact follows_refuse hat .tooManyDimensions
      · rw [if_neg hbracket]
        exact follows_element hat (by simpa using hbracket)

theorem follows_fieldType (hat : At text ⟨position, rest⟩ c) :
    Follows text (fieldType text c) (typeScanner.run .start position rest) :=
  follows_fieldTypeFrom hat

end Forwarding.Descriptor
