import Mathlib.Data.List.Basic
import Mathlib.Data.List.Induction
import Retrace.Proofs.Transaction

/-!
# Commits as patches

Undo and redo put one value of every record in place, in stored order, so the last record of a cell
decides what it holds. This tells when the one takes back what the other did.

* `Memory.patched` : a value of every record put in place; `Memory.undo`, `Memory.redo` are two cases;
* `Commit.recordsOf` : the records of one cell; `Memory.get?_patched` : the last of them decides;
* `Memory.patched_patched` : a patch covers an earlier one by the same records;
* `Commit.Chained` : each cell's last record starts from what the record before it left;
* `Memory.undo_redo_transact` : redo repeats every transaction, and undo reverses it exactly if no
  cell's last-but-one write left another value than the one before the transaction;
* `Turn`, `Memory.turns` : any alternation of undo and redo of one commit;
* `Memory.undo_redo_absorb` : only the last of them counts, whatever the records of the commit are.
-/

namespace Retrace

/-- The records of one cell, in order. -/
def Commit.recordsOf (c : Commit) (i : Nat) : List Write :=
  c.records.filter fun w => w.address.toNat = i

theorem Commit.recordsOf_concat (ws : List Write) (w : Write) (i : Nat) :
    recordsOf ⟨ws ++ [w]⟩ i = recordsOf ⟨ws⟩ i ++ if w.address.toNat = i then [w] else [] := by
  unfold recordsOf
  rw [List.filter_append, List.filter_cons]
  simp only [decide_eq_true_eq, List.filter_nil]

namespace Memory

/-! ## One value of every record -/

/-- The memory with a value of every record put in place, in stored order. -/
def patched (m : Memory) (value : Write → Word) (c : Commit) : Memory :=
  c.records.foldl (fun m w => m.set w.address.toNat (value w)) m

theorem undo_eq_patched (m : Memory) (c : Commit) : m.undo c = m.patched Write.oldValue c := rfl

theorem redo_eq_patched (m : Memory) (c : Commit) : m.redo c = m.patched Write.newValue c := rfl

theorem patched_concat (m : Memory) (value : Write → Word) (ws : List Write) (w : Write) :
    m.patched value ⟨ws ++ [w]⟩ = (m.patched value ⟨ws⟩).set w.address.toNat (value w) := by
  unfold patched
  rw [List.foldl_append]
  rfl

/-- A cell holds the value of its last record, or what it held if it has none. -/
theorem get?_patched (m : Memory) (value : Write → Word) (c : Commit) (i : Nat) :
    (m.patched value c).get? i =
      (m.get? i).map fun old => ((c.recordsOf i).getLast?.map value).getD old := by
  obtain ⟨ws⟩ := c
  induction ws using List.reverseRecOn with
  | nil => exact Option.map_id'.symm
  | append_singleton ws w ih =>
      rw [patched_concat, get?_set_eq_map, ih, Option.map_map, Commit.recordsOf_concat]
      congr 1
      funext old
      by_cases here : w.address.toNat = i
      · rw [if_pos here, List.getLast?_concat]
        exact if_pos here
      · rw [if_neg here, List.append_nil]
        exact if_neg here

theorem size_patched (m : Memory) (value : Write → Word) (c : Commit) :
    (m.patched value c).size = m.size := by
  obtain ⟨ws⟩ := c
  induction ws using List.reverseRecOn with
  | nil => rfl
  | append_singleton ws w ih => rw [patched_concat, size_set, ih]

/-- What the records put in place before does not matter. -/
theorem patched_patched (m : Memory) (first second : Write → Word) (c : Commit) :
    (m.patched first c).patched second c = m.patched second c := by
  apply eq_of_get?
  intro i
  rw [get?_patched, get?_patched, get?_patched, Option.map_map]
  rcases (c.recordsOf i).getLast? with _ | w <;> rfl

end Memory

/-! ## Back to the start -/

/-- The last record of each cell holds, as the old value, what the record before it put there, or what
was there from the start. -/
def Commit.Chained (m : Memory) (c : Commit) : Prop :=
  ∀ i front w, c.recordsOf i = front ++ [w] →
    (m.get? i).map (fun old => (front.getLast?.map Write.newValue).getD old) = some w.oldValue

theorem Commit.Chained.concat {m : Memory} {ws : List Write} {w : Write} (h : Chained m ⟨ws⟩)
    (current : (m.redo ⟨ws⟩).get? w.address.toNat = some w.oldValue) : Chained m ⟨ws ++ [w]⟩ := by
  intro i front last records
  rw [recordsOf_concat] at records
  split_ifs at records with here
  · -- the new record follows all those that the cell has so far
    obtain ⟨rfl, one⟩ := List.append_inj' records rfl
    obtain rfl : w = last := List.singleton_inj.1 one
    rwa [here, Memory.redo_eq_patched, Memory.get?_patched] at current
  · rw [List.append_nil] at records
    exact h i front last records

theorem Transaction.chained_run {α : Type} {m : Memory} {t : Transaction} (s : Script α)
    (accounts : Accounts m t) (h : t.commit.Chained m) : (s.run t).2.commit.Chained m := by
  induction s generalizing t with
  | done result => exact h
  | read a next ih => exact ih _ (accounts.read a) (by rwa [commit_read])
  | write a v next ih =>
      refine ih (accounts.write a v) ?_
      rcases hs : t.memory.slot? a with _ | i
      · rw [write_of_miss hs]
        exact h
      · rw [write_of_hit hs]
        apply h.concat
        show (m.redo t.commit).get? (UInt64.ofNat i).toNat = some (t.memory.fetch a)
        rw [accounts, (Memory.slot?_eq_some hs).2]
        exact Memory.get?_of_slot? hs

namespace Memory

theorem chained_transact {α : Type} (m : Memory) (s : Script α) : (m.transact s).2.commit.Chained m := by
  refine Transaction.chained_run s (Transaction.accounts_start m) fun i front w records => ?_
  exact absurd records (by simp [Transaction.start, Commit.recordsOf])

/-- A cell is back where it was unless its last-but-one record left something else there. -/
theorem get?_undo_redo_iff {m : Memory} {c : Commit} (h : c.Chained m) (i : Nat) :
    ((m.redo c).undo c).get? i = m.get? i ↔
      ∀ front p last, c.recordsOf i = front ++ [p, last] → m.get? i = some p.newValue := by
  rw [undo_eq_patched, redo_eq_patched, patched_patched, get?_patched]
  rcases List.eq_nil_or_concat' (c.recordsOf i) with none | ⟨front, w, records⟩
  · rw [none]
    simp
  · have old := h i front w records
    rw [records, List.getLast?_concat]
    rcases List.eq_nil_or_concat' front with rfl | ⟨front, p, rfl⟩
    · -- the only record of the cell: its old value is the one from the start
      have start : m.get? i = some w.oldValue := by simpa using old
      rw [start]
      refine ⟨fun _ front p last two => absurd (congrArg List.length two) (by simp), fun _ => rfl⟩
    · rw [List.getLast?_concat] at old
      obtain ⟨x, cell, value⟩ := Option.map_eq_some_iff.1 old
      rw [cell]
      have ends : some w.oldValue = some x ↔ some x = some p.newValue := by
        rw [← value]
        exact eq_comm
      refine ends.trans ⟨fun back front' p' last two => ?_, fun back => back front p w (by simp)⟩
      obtain ⟨-, pair⟩ := List.append_inj' ((List.append_assoc _ _ _).symm.trans two) rfl
      rw [back, (List.cons.inj pair).1]

/-- **When undo and redo invert a transaction.** Redo leads from the memory before a transaction to the
memory after it, and there again once the transaction was undone. Undo leads back exactly if, for
every cell with two or more records, the last-but-one of them wrote the value that the cell had before
the transaction. The transaction of a statement always is undone. -/
theorem undo_redo_transact (m : Memory) :
    (∀ (α : Type) (s : Script α),
      let t := (m.transact s).2
      m.redo t.commit = t.memory ∧
      (t.memory.undo t.commit).redo t.commit = t.memory ∧
      (t.memory.undo t.commit = m ↔
        ∀ i front p last, t.commit.recordsOf i = front ++ [p, last] → m.get? i = some p.newValue)) ∧
    ∀ s : Statement, (m.transact s.script).2.memory.undo (m.transact s.script).2.commit = m := by
  refine ⟨?_, fun s => undo_transact m s.script_writesLast⟩
  intro α s t
  have forward : m.redo t.commit = t.memory := redo_transact m s
  refine ⟨forward, ?_, ?_⟩
  · rw [← forward, undo_eq_patched, redo_eq_patched, redo_eq_patched, patched_patched, patched_patched]
  · rw [← forward]
    have cells := get?_undo_redo_iff (chained_transact m s)
    refine ⟨fun back i => (cells i).1 (by rw [back]), fun known => eq_of_get? fun i => (cells i).2 (known i)⟩

/-- A cell written twice is left with the value of the first write, and one written three times with its
old value if the second write had put it back. -/
theorem undo_redo_transact_repeated :
    let m : Memory := ⟨#[0]⟩
    let twice := (m.transact (.write 0 7 (.write 0 9 (.done ())))).2
    let thrice := (m.transact (.write 0 7 (.write 0 0 (.write 0 9 (.done ()))))).2
    (twice.commit.recordsOf 0).length = 2 ∧ twice.memory.undo twice.commit ≠ m ∧
      m.redo twice.commit = twice.memory ∧
      (thrice.commit.recordsOf 0).length = 3 ∧ thrice.memory.undo thrice.commit = m ∧
      (thrice.memory.undo thrice.commit).redo thrice.commit = thrice.memory := by
  intro m twice thrice
  obtain ⟨forward, -, back⟩ := (undo_redo_transact m).1 Unit (.write 0 7 (.write 0 9 (.done ())))
  obtain ⟨-, again, back'⟩ := (undo_redo_transact m).1 Unit (.write 0 7 (.write 0 0 (.write 0 9 (.done ()))))
  refine ⟨by decide, fun undone => ?_, forward, by decide, back'.2 ?_, again⟩
  · exact absurd (back.1 undone 0 [] ⟨0, 7, 0⟩ ⟨0, 9, 7⟩ (by decide)) (by decide)
  · intro i front p last records
    by_cases first : i = 0
    · subst first
      have three : thrice.commit.recordsOf 0 = [⟨0, 7, 0⟩] ++ [⟨0, 0, 7⟩, ⟨0, 9, 0⟩] := by decide
      obtain ⟨-, pair⟩ := List.append_inj' (three.symm.trans records) rfl
      cases pair
      decide
    · have none : thrice.commit.recordsOf i = [] := by
        unfold Commit.recordsOf
        rw [List.filter_eq_nil_iff]
        intro w hw
        have zero : w.address.toNat = 0 := by
          revert w
          decide
        simpa [zero] using Ne.symm first
      rw [none] at records
      simp at records

end Memory

/-! ## Back and forth -/

/-- A commit taken back, or put in place again. -/
inductive Turn where
  | undo
  | redo
  deriving DecidableEq, Repr

/-- The value of a record that a turn puts in place. -/
def Turn.value : Turn → Write → Word
  | undo => Write.oldValue
  | redo => Write.newValue

theorem Commit.recordsOf_eq_nil {c : Commit} {i : Nat} (h : ∀ w ∈ c.records, w.address.toNat ≠ i) :
    c.recordsOf i = [] := by
  unfold recordsOf
  rw [List.filter_eq_nil_iff]
  intro w hw
  simpa using h w hw

theorem Commit.getLast?_recordsOf {c : Commit} {front back : List Write} {w : Write}
    (split : c.records = front ++ w :: back) (last : ∀ v ∈ back, v.address ≠ w.address) :
    (c.recordsOf w.address.toNat).getLast? = some w := by
  have later : back.filter (fun v => v.address.toNat = w.address.toNat) = [] := by
    rw [List.filter_eq_nil_iff]
    intro v hv
    simpa [UInt64.toNat_inj] using last v hv
  unfold recordsOf
  rw [split, List.filter_append, List.filter_cons_of_pos (by simp), later, List.getLast?_concat]

namespace Memory

/-- One turn of a commit. -/
def turn (c : Commit) (m : Memory) : Turn → Memory
  | .undo => m.undo c
  | .redo => m.redo c

/-- Turns of a commit, one after the other. -/
def turns (m : Memory) (c : Commit) (ts : List Turn) : Memory :=
  ts.foldl (turn c) m

theorem turn_eq_patched (c : Commit) (m : Memory) (t : Turn) : turn c m t = m.patched t.value c := by
  cases t with
  | undo => exact undo_eq_patched m c
  | redo => exact redo_eq_patched m c

/-- A patch covers all turns before it: each of them touched the cells of the same records only. -/
theorem patched_turns (m : Memory) (c : Commit) (ts : List Turn) (value : Write → Word) :
    (m.turns c ts).patched value c = m.patched value c := by
  unfold turns
  induction ts generalizing m with
  | nil => rfl
  | cons t ts ih => rw [List.foldl_cons, ih, turn_eq_patched, patched_patched]

theorem get?_patched_of_absent {c : Commit} {i : Nat} (h : ∀ w ∈ c.records, w.address.toNat ≠ i)
    (m : Memory) (value : Write → Word) : (m.patched value c).get? i = m.get? i := by
  rw [get?_patched, Commit.recordsOf_eq_nil h]
  exact Option.map_id'

theorem get?_patched_of_last {m : Memory} {c : Commit} {front back : List Write} {w : Write}
    (split : c.records = front ++ w :: back) (last : ∀ v ∈ back, v.address ≠ w.address)
    (inside : w.address.toNat < m.size) (value : Write → Word) :
    (m.patched value c).get? w.address.toNat = some (value w) := by
  have cell : m.get? w.address.toNat = some m.cells[w.address.toNat] := Array.getElem?_eq_getElem inside
  rw [get?_patched, Commit.getLast?_recordsOf split last, cell]
  rfl

/-- **Undo and redo absorb each other.** Take any memory and any commit, also one that no transaction
made: its records may lie outside the memory, and may name a cell more than once with values that do
not fit together. Undo and redo keep the size and all cells without a record. However often the commit
was undone and redone before, in any order, undo gives what undo alone gives and redo what redo alone
gives. A cell with records ends with the old or new value of the last of them. -/
theorem undo_redo_absorb (m : Memory) (c : Commit) :
    ((m.undo c).size = m.size ∧ (m.redo c).size = m.size) ∧
    (∀ i, (∀ w ∈ c.records, w.address.toNat ≠ i) →
      (m.undo c).get? i = m.get? i ∧ (m.redo c).get? i = m.get? i) ∧
    (∀ ts : List Turn, (m.turns c ts).undo c = m.undo c ∧ (m.turns c ts).redo c = m.redo c) ∧
    ∀ front w back, c.records = front ++ w :: back → (∀ v ∈ back, v.address ≠ w.address) →
      w.address.toNat < m.size →
        (m.undo c).get? w.address.toNat = some w.oldValue ∧
        (m.redo c).get? w.address.toNat = some w.newValue := by
  simp only [undo_eq_patched, redo_eq_patched]
  refine ⟨⟨size_patched m _ c, size_patched m _ c⟩, ?_, ?_, ?_⟩
  · intro i absent
    exact ⟨get?_patched_of_absent absent m _, get?_patched_of_absent absent m _⟩
  · intro ts
    exact ⟨patched_turns m c ts _, patched_turns m c ts _⟩
  · intro front w back split last inside
    exact ⟨get?_patched_of_last split last inside _, get?_patched_of_last split last inside _⟩

/-- Two records of one cell that contradict each other, and one past the end: cell 1 follows the second
record, cell 0 has none, and turns back and forth leave no trace. -/
theorem undo_redo_absorb_contradictory :
    let m : Memory := ⟨#[5, 6]⟩
    let c : Commit := ⟨[⟨1, 10, 20⟩, ⟨7, 11, 21⟩, ⟨1, 12, 22⟩]⟩
    (m.undo c).get? 0 = some 5 ∧ (m.undo c).get? 1 = some 22 ∧ (m.redo c).get? 1 = some 12 ∧
      (m.turns c [.redo, .undo, .redo, .redo]).undo c = m.undo c := by
  intro m c
  obtain ⟨-, others, absorbed, ends⟩ := undo_redo_absorb m c
  obtain ⟨old, new⟩ := ends [⟨1, 10, 20⟩, ⟨7, 11, 21⟩] ⟨1, 12, 22⟩ [] rfl (by simp) (by decide)
  have kept := (others 0 (by simp [c])).1
  exact ⟨kept, old, new, (absorbed _).1⟩

end Memory

end Retrace
