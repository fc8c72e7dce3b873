import Mathlib.Tactic.Common
import Retrace.Record

/-!
# Scripts with and without a record

A transaction answers a script and keeps an account of it. This file sets it against the same script
answered from the bare memory, and shows that the account is a patch in both directions.

* `Script.eval` : the answer without a record; `Script.run_eq_eval`;
* `Memory.redo_transact` : the recorded writes lead from the first memory to the last one, for any
  script;
* `Script.WritesLast` : at most one write, with nothing after it;
* `Memory.undo_transact` : for such a script the recorded writes also lead back;
* `Statement.script_writesLast` : every statement is such a script.
-/

namespace Retrace

theorem Word.index?_eq_some_iff {w : Word} {n : Nat} : w.index? = some n ↔ w.toInt = n := by
  unfold index?
  split_ifs with sign
  · rw [Option.some.injEq]
    omega
  · refine ⟨fun none => (by cases none), fun value => ?_⟩
    omega

/-! ## Cells -/

namespace Memory

/-- Memories with the same cells are the same. -/
theorem eq_of_get? {m n : Memory} (h : ∀ i, m.get? i = n.get? i) : m = n := by
  obtain ⟨cells⟩ := m
  obtain ⟨cells'⟩ := n
  congr 1
  exact Array.ext_getElem? h

/-- Putting the present content back changes nothing. -/
theorem set_eq_self {m : Memory} {i : Nat} {v : Word} (h : m.get? i = some v) : m.set i v = m := by
  apply eq_of_get?
  intro j
  rw [get?_set]
  split
  · next hij => rw [← hij.1, h]
  · rfl

/-- A cell keeps what it holds, if there is such a cell, unless it is the one replaced. -/
theorem get?_set_eq_map (m : Memory) (i j : Nat) (v : Word) :
    (m.set i v).get? j = (m.get? j).map fun old => if i = j then v else old := by
  rw [get?_set]
  by_cases inside : j < m.size
  · have cell : m.get? j = some m.cells[j] := Array.getElem?_eq_getElem inside
    rw [cell]
    simp only [inside, and_true, Option.map_some]
    split_ifs <;> rfl
  · have cell : m.get? j = none := Array.getElem?_eq_none (Nat.le_of_not_lt inside)
    rw [cell, if_neg fun both => inside both.2]
    rfl

theorem set_set (m : Memory) (i : Nat) (v w : Word) : (m.set i v).set i w = m.set i w := by
  apply eq_of_get?
  intro j
  simp only [get?_set, size_set]
  split <;> rfl

/-! ## Addresses -/

theorem slot?_eq_some_iff (m : Memory) (a : Word) (i : Nat) :
    m.slot? a = some i ↔ a.toInt = (i : Int) ∧ i < m.size := by
  unfold slot? Word.index?
  by_cases sign : 0 ≤ a.toInt
  · simp only [sign, if_true]
    split_ifs with inside
    · rw [Option.some.injEq]
      omega
    · have : ¬ (a.toInt = (i : Int) ∧ i < m.size) := by omega
      simp [this]
  · simp only [sign, if_false]
    have : ¬ (a.toInt = (i : Int) ∧ i < m.size) := by omega
    simp [this]

theorem slot?_eq_none_iff (m : Memory) (a : Word) :
    m.slot? a = none ↔ ¬ (0 ≤ a.toInt ∧ a.toInt < m.size) := by
  rw [Option.eq_none_iff_forall_ne_some]
  constructor
  · rintro none ⟨low, high⟩
    exact none a.toInt.toNat ((slot?_eq_some_iff m a _).2 (by omega))
  · intro outside i hit
    have := (slot?_eq_some_iff m a i).1 hit
    omega

/-- A cell that an address names has a number that fits a recorded address. -/
theorem slot?_eq_some {m : Memory} {a : Word} {i : Nat} (h : m.slot? a = some i) :
    i < m.size ∧ (UInt64.ofNat i).toNat = i := by
  obtain ⟨value, inside⟩ := (slot?_eq_some_iff m a i).1 h
  have := a.toInt_lt
  refine ⟨inside, ?_⟩
  rw [UInt64.toNat_ofNat']
  exact Nat.mod_eq_of_lt (by omega)

/-- What a read of a cell gives is its content. -/
theorem get?_of_slot? {m : Memory} {a : Word} {i : Nat} (h : m.slot? a = some i) :
    m.get? i = some (m.fetch a) := by
  have lt := (slot?_eq_some h).1
  have hi : m.get? i = some m.cells[i] := Array.getElem?_eq_getElem lt
  simp [fetch, h, hi]

@[simp] theorem size_put (m : Memory) (a v : Word) : (m.put a v).size = m.size := by
  unfold put
  split <;> simp

theorem get?_put (m : Memory) (a v : Word) (i : Nat) :
    (m.put a v).get? i = (m.get? i).map fun old => if a.toInt = i then v else old := by
  unfold put
  rcases hs : m.slot? a with _ | j
  · have outside := (slot?_eq_none_iff m a).1 hs
    show m.get? i = _
    rcases hi : m.get? i with _ | old
    · rfl
    · have inside : i < m.size := (Array.getElem?_eq_some_iff.1 hi).1
      rw [Option.map_some, if_neg (by omega)]
  · obtain ⟨value, -⟩ := (slot?_eq_some_iff m a j).1 hs
    show (m.set j v).get? i = _
    rw [get?_set_eq_map, value]
    simp only [Int.natCast_inj]

end Memory

/-! ## Without a record -/

namespace Script

variable {α : Type}

/-- Answers a script from a memory alone. -/
def eval : Script α → Memory → α × Memory
  | done result, m => (result, m)
  | read address next, m => (next (m.fetch address)).eval m
  | write address value next, m => next.eval (m.put address value)

end Script

namespace Transaction

theorem read_of_miss {t : Transaction} {a : Word} (h : t.memory.slot? a = none) : t.read a = (0, t.miss a) := by
  simp only [read, noteRead, Memory.fetch, h]

theorem read_of_hit {t : Transaction} {a : Word} {i : Nat} (h : t.memory.slot? a = some i) :
    t.read a = (t.memory.fetch a, { t with footprint :=
      { t.footprint with read := t.footprint.read.insert (UInt64.ofNat i) } }) := by
  simp only [read, noteRead, h]

theorem write_of_miss {t : Transaction} {a v : Word} (h : t.memory.slot? a = none) :
    t.write a v = t.miss a := by
  simp only [write, h]

theorem write_of_hit {t : Transaction} {a v : Word} {i : Nat} (h : t.memory.slot? a = some i) :
    t.write a v =
      { memory := t.memory.set i v
        commit := ⟨t.commit.records ++ [⟨UInt64.ofNat i, v, t.memory.fetch a⟩]⟩
        footprint := { t.footprint with write := t.footprint.write.insert (UInt64.ofNat i) } } := by
  simp only [write, h]

end Transaction

@[simp] theorem Transaction.memory_read (t : Transaction) (a : Word) : (t.read a).2.memory = t.memory := by
  simp only [Transaction.read, Transaction.noteRead, Transaction.miss]
  split <;> rfl

@[simp] theorem Transaction.commit_read (t : Transaction) (a : Word) : (t.read a).2.commit = t.commit := by
  simp only [Transaction.read, Transaction.noteRead, Transaction.miss]
  split <;> rfl

@[simp] theorem Transaction.memory_write (t : Transaction) (a v : Word) :
    (t.write a v).memory = t.memory.put a v := by
  simp only [Transaction.write, Transaction.miss, Memory.put]
  split <;> rfl

/-- A transaction gives the result and the memory of the bare answer. -/
theorem Script.run_eq_eval {α : Type} (s : Script α) (t : Transaction) :
    ((s.run t).1, (s.run t).2.memory) = s.eval t.memory := by
  induction s generalizing t with
  | done result => rfl
  | read a next ih =>
      rw [Script.run, Script.eval, ih, Transaction.memory_read]
      rfl
  | write a v next ih => rw [Script.run, Script.eval, ih, Transaction.memory_write]

theorem Script.size_eval {α : Type} (s : Script α) (m : Memory) : (s.eval m).2.size = m.size := by
  induction s generalizing m with
  | done result => rfl
  | read a next ih => exact ih _ m
  | write a v next ih => rw [Script.eval, ih, Memory.size_put]

/-! ## Forward -/

namespace Memory

theorem redo_append (m : Memory) (xs ys : List Write) :
    m.redo ⟨xs ++ ys⟩ = (m.redo ⟨xs⟩).redo ⟨ys⟩ := by
  simp [redo]

end Memory

namespace Transaction

/-- The record leads from `m` to the present memory. -/
def Accounts (m : Memory) (t : Transaction) : Prop :=
  m.redo t.commit = t.memory

theorem accounts_start (m : Memory) : Accounts m (.start m) := rfl

theorem Accounts.read {m : Memory} {t : Transaction} (h : Accounts m t) (a : Word) :
    Accounts m (t.read a).2 := by
  unfold Accounts at h ⊢
  rw [commit_read, memory_read, h]

theorem Accounts.write {m : Memory} {t : Transaction} (h : Accounts m t) (a v : Word) :
    Accounts m (t.write a v) := by
  unfold Accounts at h ⊢
  unfold Transaction.write
  split
  · exact h
  · next i hi =>
    have address := (Memory.slot?_eq_some hi).2
    rw [Memory.redo_append]
    change Memory.set (m.redo t.commit) (UInt64.ofNat i).toNat v = _
    rw [address, h]

end Transaction

theorem Transaction.Accounts.run {α : Type} {m : Memory} {t : Transaction} (s : Script α)
    (h : Accounts m t) : Accounts m (s.run t).2 := by
  induction s generalizing t with
  | done result => exact h
  | read a next ih => exact ih _ (h.read a)
  | write a v next ih => exact ih (h.write a v)

/-- The recorded writes lead from the memory before a transaction to the memory after it. -/
theorem Memory.redo_transact {α : Type} (m : Memory) (s : Script α) :
    m.redo (m.transact s).2.commit = (m.transact s).2.memory :=
  (Transaction.accounts_start m).run s

/-! ## Backward -/

namespace Script

variable {α : Type}

/-- At most one write, after which the script is done. -/
def WritesLast : Script α → Prop
  | done _ => True
  | read _ next => ∀ value, (next value).WritesLast
  | write _ _ next => ∃ result, next = done result

/-- A script that writes last leaves everything as it was, or replaces one cell and records it. -/
theorem WritesLast.run_cases {s : Script α} (h : s.WritesLast) (t : Transaction) :
    ((s.run t).2.memory = t.memory ∧ (s.run t).2.commit = t.commit) ∨
      ∃ w : Write, t.memory.get? w.address.toNat = some w.oldValue ∧
        (s.run t).2.memory = t.memory.set w.address.toNat w.newValue ∧
        (s.run t).2.commit = ⟨t.commit.records ++ [w]⟩ := by
  induction s generalizing t with
  | done result => exact .inl ⟨rfl, rfl⟩
  | read a next ih =>
      have answered := ih _ (h (t.read a).1) (t.read a).2
      rw [Transaction.memory_read, Transaction.commit_read] at answered
      exact answered
  | write a v next ih =>
      -- nothing follows the write, so the old value read here is the one to go back to
      obtain ⟨result, rfl⟩ := h
      change ((t.write a v).memory = t.memory ∧ (t.write a v).commit = t.commit) ∨
        ∃ w : Write, t.memory.get? w.address.toNat = some w.oldValue ∧
          (t.write a v).memory = t.memory.set w.address.toNat w.newValue ∧
          (t.write a v).commit = ⟨t.commit.records ++ [w]⟩
      unfold Transaction.write
      split
      · exact .inl ⟨rfl, rfl⟩
      · next i hi =>
        have address := (Memory.slot?_eq_some hi).2
        refine .inr ⟨⟨UInt64.ofNat i, v, t.memory.fetch a⟩, ?_, ?_, rfl⟩
        · rw [address]
          exact Memory.get?_of_slot? hi
        · rw [address]

end Script

/-- The recorded write leads back from the memory after a transaction to the memory before it. -/
theorem Memory.undo_transact {α : Type} (m : Memory) {s : Script α} (h : s.WritesLast) :
    (m.transact s).2.memory.undo (m.transact s).2.commit = m := by
  obtain ⟨hm, hc⟩ | ⟨w, old, hm, hc⟩ := h.run_cases (.start m)
  · unfold Memory.transact
    rw [hm, hc]
    rfl
  · unfold Memory.transact
    rw [hm, hc]
    change (m.set w.address.toNat w.newValue).set w.address.toNat w.oldValue = m
    rw [Memory.set_set]
    exact Memory.set_eq_self old

theorem Effect.script_writesLast (e : Effect) (a b c : Word) : (e.script a b c).WritesLast := by
  cases e with
  | binary op form =>
      cases form with
      | addresses => exact fun _ _ => ⟨_, rfl⟩
      | constRight => exact fun _ => ⟨_, rfl⟩
      | constLeft => exact fun _ => ⟨_, rfl⟩
  | assign => exact ⟨_, rfl⟩
  | copy => exact fun _ => ⟨_, rfl⟩
  | invert => exact fun _ => ⟨_, rfl⟩
  | storeConst => exact fun _ => ⟨_, rfl⟩
  | load => exact fun _ _ => ⟨_, rfl⟩
  | store => exact fun _ _ => ⟨_, rfl⟩
  | jump => exact fun _ => trivial
  | jumpConst => trivial
  | jumpIfNonZero => exact fun _ => trivial

theorem Statement.script_writesLast (s : Statement) : s.script.WritesLast :=
  s.opcode.effect.script_writesLast s.a s.b s.c

end Retrace
