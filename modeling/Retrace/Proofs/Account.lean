import Mathlib.Data.List.Basic
import Retrace.Proofs.Transaction

/-!
# What a transaction accounts for

A transaction against the list of its actions: what each read gave, which writes are on record with
which old values, which addresses the footprint holds, and what the memory holds in the end.

* `Script.Plays` : a script, the actions it goes through when its reads are answered, and its result;
* `lastStored` : the last value that actions store in a cell; `Memory.held` : what the cell then holds;
* `Memory.Account` : the answers and the records of actions, action by action;
* `Transaction.Accounted` : a transaction that did exactly these actions; kept by a read and by a write,
  so by a script (`Transaction.Accounted.run`);
* `Memory.transact_accounted` : every transaction is accounted for by its actions.
-/

namespace Retrace

/-- A script goes through actions to a result. Whatever a read is answered, the script goes on from
that value. -/
inductive Script.Plays {α : Type} : Script α → List Access → α → Prop
  | done {result : α} : Plays (.done result) [] result
  | read {address value : Word} {next : Word → Script α} {log : List Access} {result : α} :
    Plays (next value) log result → Plays (.read address next) (.read address value :: log) result
  | write {address value : Word} {next : Script α} {log : List Access} {result : α} :
    Plays next log result → Plays (.write address value next) (.write address value :: log) result

/-! ## Cells after actions -/

/-- The value an action stores in a cell, if it stores one there. -/
def Access.stored? (i : Nat) : Access → Option Word
  | .read _ _ => none
  | .write a v => if a.toInt = i then some v else none

/-- The last value that actions store in a cell. -/
def lastStored (log : List Access) (i : Nat) : Option Word :=
  (log.filterMap (Access.stored? i)).getLast?

theorem lastStored_concat_read (log : List Access) (a v : Word) (i : Nat) :
    lastStored (log ++ [.read a v]) i = lastStored log i := by
  unfold lastStored
  rw [List.filterMap_append]
  exact congrArg List.getLast? (List.append_nil _)

theorem lastStored_concat_write (log : List Access) (a v : Word) (i : Nat) :
    lastStored (log ++ [.write a v]) i = if a.toInt = i then some v else lastStored log i := by
  unfold lastStored
  rw [List.filterMap_append]
  split_ifs with here
  · rw [List.filterMap_cons_some (show Access.stored? i (.write a v) = some v from if_pos here)]
    exact List.getLast?_concat
  · rw [List.filterMap_cons_none (show Access.stored? i (.write a v) = none from if_neg here)]
    exact congrArg List.getLast? (List.append_nil _)

namespace Memory

/-- An address of a cell of the memory. -/
def Inside (m : Memory) (a : Word) : Prop :=
  0 ≤ a.toInt ∧ a.toInt < m.size

/-- What a cell holds after actions: the last value stored there, or else what it held before. -/
def held (m : Memory) (log : List Access) (i : Nat) : Option Word :=
  (m.get? i).map fun old => (lastStored log i).getD old

theorem held_nil (m : Memory) (i : Nat) : m.held [] i = m.get? i :=
  Option.map_id'

theorem held_concat_read (m : Memory) (log : List Access) (a v : Word) (i : Nat) :
    m.held (log ++ [.read a v]) i = m.held log i := by
  unfold held
  rw [lastStored_concat_read]

theorem held_concat_write (m : Memory) (log : List Access) (a v : Word) (i : Nat) :
    m.held (log ++ [.write a v]) i = (m.held log i).map fun old => if a.toInt = i then v else old := by
  unfold held
  rw [lastStored_concat_write, Option.map_map]
  congr 1
  funext old
  show _ = if a.toInt = i then v else (lastStored log i).getD old
  split_ifs <;> rfl

/-- The account of actions on a memory, action by action: what a read gave, and what a write left on
record. -/
inductive Account (m : Memory) : List Access → List Write → Prop
  | nil : Account m [] []
  /-- A read gives what the cell holds by then. -/
  | hit {log : List Access} {ws : List Write} {a v : Word} {i : Nat} :
    Account m log ws → a.toInt = i → m.held log i = some v → Account m (log ++ [.read a v]) ws
  /-- Outside the memory it gives zero. -/
  | miss {log : List Access} {ws : List Write} {a : Word} :
    Account m log ws → ¬ m.Inside a → Account m (log ++ [.read a 0]) ws
  /-- A write is recorded with what the cell held by then. -/
  | landed {log : List Access} {ws : List Write} {a v old : Word} {x : Size} :
    Account m log ws → a.toInt = x.toNat → m.held log x.toNat = some old →
      Account m (log ++ [.write a v]) (ws ++ [⟨x, v, old⟩])
  /-- Outside the memory it leaves no record. -/
  | lost {log : List Access} {ws : List Write} {a v : Word} :
    Account m log ws → ¬ m.Inside a → Account m (log ++ [.write a v]) ws

end Memory

/-! ## Addresses of actions -/

/-- An action reads the address. -/
def ReadsFrom (log : List Access) (a : Word) : Prop :=
  ∃ v, Access.read a v ∈ log

/-- An action reads or writes the address. -/
def Touches (log : List Access) (a : Word) : Prop :=
  ∃ v, Access.read a v ∈ log ∨ Access.write a v ∈ log

theorem readsFrom_concat_read (log : List Access) (a v b : Word) :
    ReadsFrom (log ++ [.read a v]) b ↔ ReadsFrom log b ∨ b = a := by
  simp [ReadsFrom, exists_or]

theorem readsFrom_concat_write (log : List Access) (a v b : Word) :
    ReadsFrom (log ++ [.write a v]) b ↔ ReadsFrom log b := by
  simp [ReadsFrom]

theorem touches_concat_read (log : List Access) (a v b : Word) :
    Touches (log ++ [.read a v]) b ↔ Touches log b ∨ b = a := by
  simp [Touches, exists_or, or_right_comm]

theorem touches_concat_write (log : List Access) (a v b : Word) :
    Touches (log ++ [.write a v]) b ↔ Touches log b ∨ b = a := by
  simp [Touches, exists_or, or_assoc]

/-! ## Transactions -/

namespace Transaction

/-- The transaction on `m` that did exactly the actions of `log`. -/
structure Accounted (m : Memory) (log : List Access) (t : Transaction) : Prop where
  account : m.Account log t.commit.records
  read : ∀ x : Size, x ∈ t.footprint.read ↔ ∃ a, ReadsFrom log a ∧ m.Inside a ∧ a.toInt = x.toNat
  write : ∀ x : Size, x ∈ t.footprint.write ↔ ∃ w ∈ t.commit.records, w.address = x
  outOfBounds : ∀ a : Word, a ∈ t.footprint.outOfBounds ↔ Touches log a ∧ ¬ m.Inside a
  size : t.memory.size = m.size
  cells : ∀ i, t.memory.get? i = m.held log i

namespace Accounted

variable {m : Memory} {log : List Access} {t : Transaction}

theorem start (m : Memory) : Accounted m [] (.start m) := by
  refine ⟨.nil, ?_, ?_, ?_, rfl, fun i => (m.held_nil i).symm⟩ <;>
    simp [Transaction.start, Footprint.empty, ReadsFrom, Touches]

theorem not_inside (h : Accounted m log t) {a : Word} (miss : t.memory.slot? a = none) : ¬ m.Inside a := by
  rw [Memory.slot?_eq_none_iff, h.size] at miss
  exact miss

/-- An address in the memory names one cell, whose number is recorded. -/
theorem inside (h : Accounted m log t) {a : Word} {i : Nat} (hit : t.memory.slot? a = some i) :
    m.Inside a ∧ a.toInt = (UInt64.ofNat i).toNat ∧ (UInt64.ofNat i).toNat = i := by
  obtain ⟨value, lt⟩ := (Memory.slot?_eq_some_iff _ _ _).1 hit
  rw [h.size] at lt
  rw [(Memory.slot?_eq_some hit).2]
  exact ⟨⟨by omega, by omega⟩, value, rfl⟩

/-- A miss is noted once more for every address that is tried outside the memory. -/
theorem mem_miss (h : Accounted m log t) {a : Word} (outside : ¬ m.Inside a) (b : Word) :
    b ∈ (t.miss a).footprint.outOfBounds ↔ (Touches log b ∨ b = a) ∧ ¬ m.Inside b := by
  show b ∈ t.footprint.outOfBounds.insert a ↔ _
  rw [OrderedSet.mem_insert, h.outOfBounds]
  refine ⟨?_, fun ⟨tried, out⟩ => tried.elim (fun old => .inr ⟨old, out⟩) .inl⟩
  rintro (rfl | ⟨old, out⟩)
  · exact ⟨.inr rfl, outside⟩
  · exact ⟨.inl old, out⟩

/-- An address in the memory adds nothing to the addresses tried outside it. -/
theorem mem_outOfBounds_of_inside (h : Accounted m log t) {a : Word} (inside : m.Inside a) (b : Word) :
    b ∈ t.footprint.outOfBounds ↔ (Touches log b ∨ b = a) ∧ ¬ m.Inside b := by
  refine (h.outOfBounds b).trans ⟨fun ⟨old, out⟩ => ⟨.inl old, out⟩, ?_⟩
  rintro ⟨old | rfl, out⟩
  · exact ⟨old, out⟩
  · exact absurd inside out

theorem read_step (h : Accounted m log t) (a : Word) :
    Accounted m (log ++ [.read a (t.read a).1]) (t.read a).2 := by
  rcases hs : t.memory.slot? a with _ | i
  · have outside := h.not_inside hs
    rw [read_of_miss hs]
    refine ⟨.miss h.account outside, fun x => ?_, h.write, fun b => ?_, h.size, fun i => ?_⟩
    · simp only [readsFrom_concat_read]
      refine (h.read x).trans ⟨fun ⟨b, old, rest⟩ => ⟨b, .inl old, rest⟩, ?_⟩
      rintro ⟨b, old | rfl, inside, value⟩
      · exact ⟨b, old, inside, value⟩
      · exact absurd inside outside
    · rw [touches_concat_read]
      exact h.mem_miss outside b
    · rw [Memory.held_concat_read]
      exact h.cells i
  · obtain ⟨inside, value, number⟩ := h.inside hs
    have cell : m.held log i = some (t.memory.fetch a) := by rw [← h.cells, Memory.get?_of_slot? hs]
    rw [read_of_hit hs]
    refine ⟨.hit h.account (by rw [value, number]) cell, fun x => ?_, h.write, fun b => ?_, h.size, fun i => ?_⟩
    · simp only [readsFrom_concat_read]
      rw [OrderedSet.mem_insert, h.read]
      refine ⟨?_, ?_⟩
      · rintro (rfl | ⟨b, old, rest⟩)
        · exact ⟨a, .inr rfl, inside, value⟩
        · exact ⟨b, .inl old, rest⟩
      · rintro ⟨b, old | rfl, rest⟩
        · exact .inr ⟨b, old, rest⟩
        · left
          apply UInt64.toNat_inj.1
          omega
    · rw [touches_concat_read]
      exact h.mem_outOfBounds_of_inside inside b
    · rw [Memory.held_concat_read]
      exact h.cells i

theorem write_step (h : Accounted m log t) (a v : Word) :
    Accounted m (log ++ [.write a v]) (t.write a v) := by
  have size : (t.write a v).memory.size = m.size := by rw [memory_write, Memory.size_put, h.size]
  have cells : ∀ i, (t.write a v).memory.get? i = m.held (log ++ [.write a v]) i := fun i => by
    rw [memory_write, Memory.get?_put, h.cells, Memory.held_concat_write]
  rcases hs : t.memory.slot? a with _ | i
  · have outside := h.not_inside hs
    rw [write_of_miss hs] at size cells ⊢
    refine ⟨.lost h.account outside, fun x => ?_, h.write, fun b => ?_, size, cells⟩
    · simp only [readsFrom_concat_write]
      exact h.read x
    · rw [touches_concat_write]
      exact h.mem_miss outside b
  · obtain ⟨inside, value, number⟩ := h.inside hs
    have old : m.held log (UInt64.ofNat i).toNat = some (t.memory.fetch a) := by
      rw [← h.cells, number, Memory.get?_of_slot? hs]
    rw [write_of_hit hs] at size cells ⊢
    refine ⟨.landed h.account value old, fun x => ?_, fun x => ?_, fun b => ?_, size, cells⟩
    · simp only [readsFrom_concat_write]
      exact h.read x
    · rw [OrderedSet.mem_insert, h.write]
      simp [or_and_right, exists_or, or_comm, eq_comm]
    · rw [touches_concat_write]
      exact h.mem_outOfBounds_of_inside inside b

/-- A script adds its own actions to the account. -/
theorem run {α : Type} (s : Script α) (h : Accounted m log t) :
    Accounted m (log ++ s.accesses t.memory) (s.run t).2 := by
  induction s generalizing log t with
  | done result =>
      rw [Script.accesses, List.append_nil]
      exact h
  | read a next ih =>
      have rest := ih (t.read a).1 (h.read_step a)
      rw [memory_read, List.append_assoc] at rest
      exact rest
  | write a v next ih =>
      have rest := ih (h.write_step a v)
      rw [memory_write, List.append_assoc] at rest
      exact rest

end Accounted

end Transaction

theorem Script.plays_accesses {α : Type} (s : Script α) (t : Transaction) :
    s.Plays (s.accesses t.memory) (s.run t).1 := by
  induction s generalizing t with
  | done result => exact .done
  | read a next ih =>
      have rest := ih (t.read a).1 (t.read a).2
      rw [Transaction.memory_read] at rest
      exact .read rest
  | write a v next ih =>
      have rest := ih (t.write a v)
      rw [Transaction.memory_write] at rest
      exact .write rest

/-- **A transaction is accounted for.** The actions of a script on a memory are a way the script goes,
to the result of the transaction. A read among them gave the last value stored in its cell, or what the
cell held before the transaction, and zero outside the memory; the commit holds the writes in the
memory, in order, with what their cells held by then; the footprint holds the addresses of the cells
read, those of the records, and the addresses tried outside the memory; and the memory holds the last
value stored in each cell and is otherwise as it was. -/
theorem Memory.transact_accounted {α : Type} (m : Memory) (s : Script α) :
    s.Plays (s.accesses m) (m.transact s).1 ∧
      Transaction.Accounted m (s.accesses m) (m.transact s).2 :=
  ⟨s.plays_accesses (.start m), (Transaction.Accounted.start m).run s⟩

end Retrace
