import Forwarding.Proofs.ClassFile.MethodWalk

/-!
# Class files that are cut short

The first part of a class file is read as far as it goes.  It has the same header if it
reaches that far, and the same methods up to the one that is cut off, for which bytes are
missing.  A part of a method is never taken for a method.
-/

namespace Forwarding.ClassFile

open Reader

variable {pool : ConstantPool} {count k : Nat} {c e : Cursor} {data : Array UInt8}
  {file : ClassFile}

/-! ## Methods up to a limit -/

/-- The failure of a table that has lost methods. -/
def cutOff (kept total : Nat) : Option Error :=
  if kept < total then some .outOfBounds else none

theorem cutOff_succ (kept total : Nat) : cutOff (kept + 1) (total + 1) = cutOff kept total := by
  simp [cutOff]

/-- The methods in front of the limit are read, and then bytes are missing. -/
theorem readMethods_of_isCut {methods : List MethodEntry}
    (hread : readMethods pool count c = (methods, none)) (hcut : e.IsCut k c) :
    ∃ kept, kept = ((readMethodEnds pool count c).filter (·.2 ≤ k)).map Prod.fst ∧
      readMethods pool count e = (kept, cutOff kept.length methods.length) := by
  induction count generalizing c e methods with
  | zero =>
      cases hread
      exact ⟨[], rfl, rfl⟩
  | succ count ih =>
      rcases hrun : (readMethod pool).run c with ⟨error | m, c'⟩
      · rw [readMethods_of_error hrun] at hread
        cases hread
      · rw [readMethods_of_ok hrun, Prod.mk.injEq] at hread
        obtain ⟨rfl, hfailure⟩ := hread
        rw [readMethodEnds_of_ok hrun]
        by_cases hwithin : c'.position ≤ k
        · obtain ⟨e', hrun', hcut'⟩ := run_within hcut hrun hwithin
          obtain ⟨kept, hkept, hothers⟩ := ih (Prod.ext rfl hfailure) hcut'
          refine ⟨m :: kept, by simp [hwithin, hkept], ?_⟩
          rw [readMethods_of_ok hrun', hothers, List.length_cons, List.length_cons, cutOff_succ]
        · -- The methods behind the one that is cut off end even later.
          have hbeyond : k < c'.position := by omega
          obtain ⟨e', hrun'⟩ := run_beyond hcut hrun hbeyond
          have hnone : ∀ found ∈ readMethodEnds pool count c', ¬found.2 ≤ k := by
            intro found hfound
            have hlater := position_le_of_mem_readMethodEnds hfound
            omega
          refine ⟨[], ?_, ?_⟩
          · simpa [hwithin] using hnone
          · rw [readMethods_of_error hrun']
            simp [cutOff]

/-! ## Class files up to a limit -/

theorem readHeader_of_parse (hparse : parse data = .ok file) :
    readHeader.run (.start data) = (.ok file.toHeader, file.methodTable) := by
  unfold parse at hparse
  rcases hrun : readHeader.run (.start data) with ⟨error | header, c⟩
  · rw [hrun] at hparse
    cases hparse
  · rw [hrun] at hparse
    cases hparse
    rfl

theorem parse_extract_of_short (hparse : parse data = .ok file) (hk : k ≤ data.size)
    (hshort : k < file.methodTable.position) :
    parse (data.extract 0 k) = .error .outOfBounds := by
  have hcut := Cursor.isCut_start hk
  obtain ⟨e, hrun⟩ := run_beyond hcut (readHeader_of_parse hparse) hshort
  rw [parse, hrun]

theorem parse_extract_of_le (hparse : parse data = .ok file) (hk : k ≤ data.size)
    (hwithin : file.methodTable.position ≤ k) :
    ∃ short, parse (data.extract 0 k) = .ok short ∧ short.toHeader = file.toHeader ∧
      short.methodTable.IsCut k file.methodTable := by
  have hcut := Cursor.isCut_start hk
  obtain ⟨e, hrun, hcut'⟩ := run_within hcut (readHeader_of_parse hparse) hwithin
  refine ⟨{ file.toHeader with methodTable := e }, ?_, rfl, hcut'⟩
  rw [parse, hrun]

theorem exists_run_of_walk {w : MethodWalk} (hwalk : file.walk = .ok w) :
    ∃ total : UInt16, u16.run file.methodTable = (.ok total, w.cursor) ∧
      w = ⟨file.pool, w.cursor, total.toNat⟩ ∧
      w.cursor.position = file.methodTable.position + 2 := by
  unfold walk at hwalk
  rcases hrun : u16.run file.methodTable with ⟨error | total, c⟩
  · rw [hrun] at hwalk
    cases hwalk
  · rw [hrun] at hwalk
    cases hwalk
    obtain ⟨bytes, hpasses, hreads⟩ := run_eq_ok_iff.mp hrun
    have hend := hpasses.position
    rw [reads_u16_iff.mp hreads, length_toBytes] at hend
    exact ⟨total, rfl, rfl, hend⟩

theorem walk_of_short {short : ClassFile} {w : MethodWalk} (hwalk : file.walk = .ok w)
    (hcut : short.methodTable.IsCut k file.methodTable)
    (hshort : k < file.methodTable.position + 2) : short.walk = .error .outOfBounds := by
  obtain ⟨total, hrun, -, hend⟩ := exists_run_of_walk hwalk
  obtain ⟨e, hrun'⟩ := run_beyond hcut hrun (by omega)
  rw [walk, hrun']

theorem walk_of_le {short : ClassFile} {w : MethodWalk} (hwalk : file.walk = .ok w)
    (hheader : short.toHeader = file.toHeader)
    (hcut : short.methodTable.IsCut k file.methodTable)
    (hwithin : file.methodTable.position + 2 ≤ k) :
    ∃ e, short.walk = .ok { w with cursor := e } ∧ e.IsCut k w.cursor := by
  obtain ⟨total, hrun, hw, hend⟩ := exists_run_of_walk hwalk
  obtain ⟨e, hrun', hcut'⟩ := run_within hcut hrun (by omega)
  refine ⟨e, ?_, hcut'⟩
  rw [walk, hrun', hw, hheader]

theorem table_of_isCut {w : MethodWalk} (hwalk : file.walk = .ok w)
    (hreadable : w.table.failure = none) (hcut : e.IsCut k w.cursor) :
    MethodWalk.table { w with cursor := e } = ⟨w.table.count, file.methodsUpTo k,
      cutOff (file.methodsUpTo k).length w.table.methods.length⟩ := by
  have hread : readMethods w.pool w.remaining w.cursor = (w.table.methods, none) :=
    Prod.ext rfl hreadable
  obtain ⟨kept, hkept, hothers⟩ := readMethods_of_isCut hread hcut
  have hupTo : file.methodsUpTo k = kept := by
    rw [methodsUpTo, methodEnds, hwalk, hkept]
  rw [hupTo, MethodWalk.table, hothers]
  rfl

/-- A class file whose methods can all be read may be cut anywhere.  Without the whole number
of its methods there is no walk through them.  With it the header is the same, and the walk
gives the methods that are there as a whole, then one failure if others are not, and then
nothing. -/
theorem methods_of_truncated (data : Array UInt8) (file : ClassFile) (table : MethodTable) (k : Nat)
    (hparse : parse data = .ok file) (htable : file.methods = .ok table)
    (hreadable : table.failure = none) (hk : k ≤ data.size) :
    file.methodEnds.map Prod.fst = table.methods ∧
    (k < file.methodTable.position → parse (data.extract 0 k) = .error .outOfBounds) ∧
    (file.methodTable.position ≤ k → ∃ short, parse (data.extract 0 k) = .ok short ∧
      short.toHeader = file.toHeader ∧
      (k < file.methodTable.position + 2 →
        short.walk = .error .outOfBounds ∧ short.methods = .error .outOfBounds) ∧
      (file.methodTable.position + 2 ≤ k →
        short.methods = .ok ⟨table.count, file.methodsUpTo k,
          cutOff (file.methodsUpTo k).length table.methods.length⟩ ∧
        ∃ w, short.walk = .ok w ∧ ∀ n, w.answer n = ((file.methodsUpTo k).map .ok ++
          if (file.methodsUpTo k).length < table.methods.length then [.error .outOfBounds]
          else [])[n]?)) := by
  rw [methods_eq_table_of_walk] at htable
  obtain ⟨w, hwalk, rfl⟩ := except_map_eq_ok.mp htable
  refine ⟨?_, parse_extract_of_short hparse hk, fun hheader => ?_⟩
  · rw [methodEnds, hwalk]
    exact map_fst_readMethodEnds w.pool w.remaining w.cursor
  · obtain ⟨short, hshort, hsame, hcut⟩ := parse_extract_of_le hparse hk hheader
    refine ⟨short, hshort, hsame, fun hmissing => ?_, fun hcounted => ?_⟩
    · have hnone := walk_of_short hwalk hcut hmissing
      refine ⟨hnone, ?_⟩
      rw [methods_eq_table_of_walk, hnone]
      rfl
    · obtain ⟨e, hwalk', hcut'⟩ := walk_of_le hwalk hsame hcut hcounted
      have hkept := table_of_isCut hwalk hreadable hcut'
      refine ⟨?_, _, hwalk', fun n => ?_⟩
      · rw [methods_eq_table_of_walk, hwalk', ← hkept]
        rfl
      · rw [MethodWalk.answer_eq, hkept, cutOff]
        split <;> rfl

/-- Two methods of 27 bytes each, from 39 on. -/
def twoMethods : Array UInt8 :=
  #[0xCA, 0xFE, 0xBA, 0xBE, 0x00, 0x00, 0x00, 0x34,
    0x00, 0x04, 0x01, 0x00, 0x01, 0x61, 0x01, 0x00, 0x03, 0x28, 0x29, 0x56,
    0x01, 0x00, 0x04, 0x43, 0x6F, 0x64, 0x65,
    0x00, 0x01, 0x00, 0x00, 0x00, 0x00, 0x00, 0x00, 0x00, 0x00, 0x00, 0x02,
    0x00, 0x01, 0x00, 0x01, 0x00, 0x02, 0x00, 0x01, 0x00, 0x03, 0x00, 0x00, 0x00, 0x0D,
    0x00, 0x00, 0x00, 0x00, 0x00, 0x00, 0x00, 0x01, 0xB1, 0x00, 0x00, 0x00, 0x00,
    0x00, 0x09, 0x00, 0x01, 0x00, 0x02, 0x00, 0x01, 0x00, 0x03, 0x00, 0x00, 0x00, 0x0D,
    0x00, 0x00, 0x00, 0x00, 0x00, 0x00, 0x00, 0x01, 0xB1, 0x00, 0x00, 0x00, 0x00,
    0x00, 0x00]

def firstMethod : MethodEntry :=
  ⟨⟨0x0001⟩, "a", "()V", some ⟨0, 0, [0xB1]⟩⟩

def secondMethod : MethodEntry :=
  ⟨⟨0x0009⟩, "a", "()V", some ⟨0, 0, [0xB1]⟩⟩

theorem twoMethods_read :
    ∃ file table, parse twoMethods = .ok file ∧ file.methods = .ok table ∧
      table.methods = [firstMethod, secondMethod] ∧ table.failure = none ∧
      file.methodTable.position = 37 ∧
      file.methodEnds = [(firstMethod, 66), (secondMethod, 93)] := by
  have hcomputed :
      ((parse twoMethods).toOption.bind fun file => file.methods.toOption.map fun table =>
        (table.methods, table.failure, file.methodTable.position, file.methodEnds)) =
      some ([firstMethod, secondMethod], none, 37,
        [(firstMethod, 66), (secondMethod, 93)]) := by
    decide +kernel
  obtain ⟨file, hfile, hcomputed⟩ := Option.bind_eq_some_iff.mp hcomputed
  obtain ⟨table, htable, hcomputed⟩ := Option.map_eq_some_iff.mp hcomputed
  simp only [Prod.mk.injEq] at hcomputed
  exact ⟨file, table, except_toOption_eq_some.mp hfile, except_toOption_eq_some.mp htable,
    hcomputed⟩

/-- The code of the second method is cut off. -/
theorem methods_of_truncated_twoMethods :
    ∃ file short w, parse twoMethods = .ok file ∧
      parse (twoMethods.extract 0 80) = .ok short ∧ short.toHeader = file.toHeader ∧
      short.walk = .ok w ∧ w.answer 0 = some (.ok firstMethod) ∧
      w.answer 1 = some (.error .outOfBounds) ∧ ∀ n, w.answer (n + 2) = none := by
  obtain ⟨file, table, hparse, htable, hmethods, hfailure, hposition, hends⟩ := twoMethods_read
  obtain ⟨-, -, hcut⟩ :=
    methods_of_truncated twoMethods file table 80 hparse htable hfailure (by decide)
  rw [hposition] at hcut
  obtain ⟨short, hshort, hheader, -, hwalks⟩ := hcut (by decide)
  obtain ⟨-, w, hwalk, hanswers⟩ := hwalks (by decide)
  have hkept : file.methodsUpTo 80 = [firstMethod] := by
    rw [methodsUpTo, hends]
    rfl
  rw [hkept, hmethods] at hanswers
  exact ⟨file, short, w, hparse, hshort, hheader, hwalk, hanswers 0, hanswers 1,
    fun n => hanswers (n + 2)⟩

end Forwarding.ClassFile
