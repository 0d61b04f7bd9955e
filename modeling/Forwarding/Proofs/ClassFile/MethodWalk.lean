import Forwarding.ClassFile.MethodTable
import Forwarding.Proofs.Bytes.Truncation
import Forwarding.Proofs.Outcome

/-!
# Walking through the methods

The methods of a class file can be asked for one at a time, by a cursor of its own that
stands in front of the next one.  The table is what there is to get in this way: all the
methods up to the first one that cannot be read, then what is wrong with it, and then
nothing, however often it is asked for.
-/

namespace Forwarding.ClassFile

open Reader

variable {pool : ConstantPool} {count : Nat} {c c' : Cursor} {m : MethodEntry} {error : Error}

theorem readMethods_of_ok (hrun : (readMethod pool).run c = (.ok m, c')) :
    readMethods pool (count + 1) c =
      (m :: (readMethods pool count c').1, (readMethods pool count c').2) := by
  rw [readMethods, hrun]

theorem readMethods_of_error (hrun : (readMethod pool).run c = (.error error, c')) :
    readMethods pool (count + 1) c = ([], some error) := by
  rw [readMethods, hrun]

/-- A walk that stands in front of the methods that remain. -/
structure MethodWalk where
  pool : ConstantPool
  cursor : Cursor
  remaining : Nat

namespace MethodWalk

/-- Asks for the next method.  There are none behind one that cannot be read. -/
def next (w : MethodWalk) : Option (Except Error MethodEntry) × MethodWalk :=
  match w.remaining with
  | 0 => (none, w)
  | remaining + 1 =>
      match (readMethod w.pool).run w.cursor with
      | (.ok method, c) => (some (.ok method), { w with cursor := c, remaining })
      | (.error error, c) => (some (.error error), { w with cursor := c, remaining := 0 })

/-- What is answered when the walk was asked some times before. -/
def answer : Nat → MethodWalk → Option (Except Error MethodEntry)
  | 0, w => w.next.1
  | n + 1, w => answer n w.next.2

/-- The table of all that remains. -/
def table (w : MethodWalk) : MethodTable where
  count := w.remaining
  methods := (readMethods w.pool w.remaining w.cursor).1
  failure := (readMethods w.pool w.remaining w.cursor).2

theorem answer_of_finished {w : MethodWalk} (hfinished : w.remaining = 0) (n : Nat) :
    w.answer n = none := by
  have hnext : w.next = (none, w) := by rw [next, hfinished]
  induction n with
  | zero => rw [answer, hnext]
  | succ n ih => rw [answer, hnext, ih]

/-- The answers are the methods of the table and then its failure. -/
theorem answer_eq (w : MethodWalk) (n : Nat) :
    w.answer n = (w.table.methods.map .ok ++ w.table.failure.toList.map .error)[n]? := by
  obtain ⟨pool, cursor, remaining⟩ := w
  induction remaining generalizing cursor n with
  | zero => simpa [table, readMethods] using answer_of_finished rfl n
  | succ remaining ih =>
      rcases hrun : (readMethod pool).run cursor with ⟨error | m, c'⟩
      · cases n with
        | zero => simp [answer, next, table, readMethods_of_error hrun, hrun]
        | succ n =>
            have hnone := @answer_of_finished ⟨pool, c', 0⟩ rfl n
            simpa [answer, next, table, readMethods_of_error hrun, hrun] using hnone
      · cases n with
        | zero => simp [answer, next, table, readMethods_of_ok hrun, hrun]
        | succ n =>
            have hrest := ih n c'
            simpa [answer, next, table, readMethods_of_ok hrun, hrun] using hrest

end MethodWalk

/-- Begins to walk through the methods behind their number. -/
def walk (file : ClassFile) : Except Error MethodWalk :=
  match u16.run file.methodTable with
  | (.ok count, c) => .ok ⟨file.pool, c, count.toNat⟩
  | (.error error, _) => .error error

theorem methods_eq_table_of_walk (file : ClassFile) :
    file.methods = file.walk.map MethodWalk.table := by
  unfold methods walk
  rcases u16.run file.methodTable with ⟨error | count, c⟩
  · rfl
  · rfl

/-! ## Where methods end -/

/-- The methods that can be read, with the positions where they end. -/
def readMethodEnds (pool : ConstantPool) : Nat → Cursor → List (MethodEntry × Nat)
  | 0, _ => []
  | count + 1, c =>
      match (readMethod pool).run c with
      | (.ok method, c') => (method, c'.position) :: readMethodEnds pool count c'
      | (.error _, _) => []

/-- The methods of a class file, with the positions where they end. -/
def methodEnds (file : ClassFile) : List (MethodEntry × Nat) :=
  match file.walk with
  | .ok w => readMethodEnds w.pool w.remaining w.cursor
  | .error _ => []

/-- The methods that end at a position or in front of it. -/
def methodsUpTo (file : ClassFile) (position : Nat) : List MethodEntry :=
  (file.methodEnds.filter (·.2 ≤ position)).map Prod.fst

theorem readMethodEnds_of_ok (hrun : (readMethod pool).run c = (.ok m, c')) :
    readMethodEnds pool (count + 1) c = (m, c'.position) :: readMethodEnds pool count c' := by
  rw [readMethodEnds, hrun]

theorem readMethodEnds_of_error (hrun : (readMethod pool).run c = (.error error, c')) :
    readMethodEnds pool (count + 1) c = [] := by
  rw [readMethodEnds, hrun]

theorem map_fst_readMethodEnds (pool : ConstantPool) (count : Nat) (c : Cursor) :
    (readMethodEnds pool count c).map Prod.fst = (readMethods pool count c).1 := by
  induction count generalizing c with
  | zero => rfl
  | succ count ih =>
      rcases hrun : (readMethod pool).run c with ⟨error | m, c'⟩
      · rw [readMethodEnds_of_error hrun, readMethods_of_error hrun, List.map_nil]
      · rw [readMethodEnds_of_ok hrun, readMethods_of_ok hrun, List.map_cons, ih c']

theorem position_le_of_mem_readMethodEnds {found : MethodEntry × Nat}
    (hfound : found ∈ readMethodEnds pool count c) : c.position ≤ found.2 := by
  induction count generalizing c with
  | zero => simp [readMethodEnds] at hfound
  | succ count ih =>
      have hforward := (run_forward (readMethod pool) c).2
      rcases hrun : (readMethod pool).run c with ⟨error | m, c'⟩
      · simp [readMethodEnds_of_error hrun] at hfound
      · rw [hrun] at hforward
        rw [readMethodEnds_of_ok hrun] at hfound
        rcases List.mem_cons.mp hfound with rfl | hfound
        · exact hforward
        · exact Nat.le_trans hforward (ih hfound)

end Forwarding.ClassFile
