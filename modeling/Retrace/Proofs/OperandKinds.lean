import Retrace.Proofs.Account
import Retrace.Proofs.Assignment

/-!
# Operand kinds and footprints

The kinds of the operands say which addresses a statement uses, and nothing checks them against what
the statement does. They are right all the same: on every memory the addresses that follow from the
kinds are those the statement asks for, and those its footprint holds.

* `OperandKind.addresses` : where an operand of a kind leads;
* `Statement.declared`, `Statement.addresses` : the operands with their kinds, and where they lead;
* `Effect.touches_script` : the actions of an effect are at these addresses, and no others;
* `Memory.holds_transact` : a footprint holds the addresses of all actions of a transaction;
* `Effect.pointer_first` : a pointer is read before anything else;
* `Statement.kinds_tell_footprint` : kinds, actions and footprint agree.
-/

namespace Retrace

/-! ## Declared addresses -/

/-- The addresses an operand leads to on a memory. A literal leads nowhere; a pointer leads to its own
cell and on to the address that the cell holds. -/
def OperandKind.addresses (m : Memory) : OperandKind → Word → List Word
  | constant, _ => []
  | address, x => [x]
  | pointer, x => [x, m.cell x]

namespace Statement

/-- The operands with the kinds the catalog gives them. -/
def declared (s : Statement) : List (OperandKind × Word) :=
  s.opcode.effect.kinds.zip s.operands

/-- The addresses that the operands lead to. -/
def addresses (m : Memory) (s : Statement) : List Word :=
  s.declared.flatMap fun (kind, x) => kind.addresses m x

/-- Slots past the operands have no kind. -/
theorem declared_eq (s : Statement) : s.declared = s.opcode.effect.kinds.zip s.slots := by
  unfold declared operands Opcode.arity slots
  cases s.opcode.effect with
  | binary op form => cases form <;> rfl
  | _ => rfl

end Statement

/-! ## Actions -/

theorem not_touches_nil (a : Word) : ¬ Touches [] a := by
  simp [Touches]

theorem touches_cons_read (log : List Access) (a v b : Word) :
    Touches (.read a v :: log) b ↔ b = a ∨ Touches log b := by
  simp [Touches, exists_or, or_assoc]

theorem touches_cons_write (log : List Access) (a v b : Word) :
    Touches (.write a v :: log) b ↔ b = a ∨ Touches log b := by
  simp [Touches, exists_or, or_left_comm]

namespace Effect

/-- The actions of an effect are at the addresses its operands lead to, and at no others. -/
theorem touches_script (m : Memory) (e : Effect) (a b c x : Word) :
    Touches ((e.script a b c).accesses m) x ↔
      x ∈ (e.kinds.zip [a, b, c]).flatMap fun (kind, y) => kind.addresses m y := by
  cases e with
  | binary op form =>
      cases form <;>
        simp [script, inputs, Script.accesses, kinds, InputForm.kinds, OperandKind.addresses,
          touches_cons_read, touches_cons_write, not_touches_nil]
  | _ =>
      simp [script, Script.accesses, kinds, OperandKind.addresses, touches_cons_read,
        touches_cons_write, not_touches_nil, m.fetch_eq_cell, or_comm]

/-- A pointer is read before anything else, and the address it holds is used after that. -/
theorem pointer_first (m : Memory) (e : Effect) (a b c x : Word)
    (h : (OperandKind.pointer, x) ∈ e.kinds.zip [a, b, c]) :
    ∃ rest, (e.script a b c).accesses m = .read x (m.cell x) :: rest ∧ Touches rest (m.cell x) := by
  cases e with
  | binary op form => cases form <;> simp [kinds, InputForm.kinds] at h
  | load =>
      obtain rfl : x = a := by simpa [kinds] using h
      rw [← m.fetch_eq_cell]
      exact ⟨_, rfl, m.fetch (m.fetch x), .inl (by simp [Script.accesses])⟩
  | store =>
      obtain rfl : x = a := by simpa [kinds] using h
      rw [← m.fetch_eq_cell]
      exact ⟨_, rfl, m.fetch b, .inr (by simp [Script.accesses])⟩
  | storeConst =>
      obtain rfl : x = a := by simpa [kinds] using h
      rw [← m.fetch_eq_cell]
      exact ⟨_, rfl, b, .inr (by simp [Script.accesses])⟩
  | _ => simp [kinds] at h

end Effect

/-! ## Footprints -/

/-- A number stands in one of the three sets of a footprint. -/
def Footprint.Holds (f : Footprint) (n : Int) : Prop :=
  (∃ i ∈ f.read, (i.toNat : Int) = n) ∨ (∃ i ∈ f.write, (i.toNat : Int) = n) ∨
    ∃ x ∈ f.outOfBounds, x.toInt = n

theorem OrderedSet.exists_mem_insert {α : Type} [LT α] [DecidableLT α] [LE α] [Std.LawfulOrderLT α]
    [Std.IsLinearOrder α] {s : OrderedSet α} {x : α} {P : α → Prop} :
    (∃ y ∈ s.insert x, P y) ↔ P x ∨ ∃ y ∈ s, P y := by
  simp only [mem_insert, exists_eq_or_imp]

namespace Transaction

theorem holds_miss (t : Transaction) (a : Word) (n : Int) :
    (t.miss a).footprint.Holds n ↔ t.footprint.Holds n ∨ a.toInt = n := by
  simp only [miss, Footprint.Holds, OrderedSet.exists_mem_insert, or_assoc, or_comm, or_left_comm]

theorem holds_read (t : Transaction) (a : Word) (n : Int) :
    (t.read a).2.footprint.Holds n ↔ t.footprint.Holds n ∨ a.toInt = n := by
  cases hs : t.memory.slot? a with
  | none =>
      rw [read_of_miss hs]
      exact t.holds_miss a n
  | some i =>
      have value := ((Memory.slot?_eq_some_iff _ _ _).1 hs).1
      have number := (Memory.slot?_eq_some hs).2
      rw [read_of_hit hs, value]
      simp only [Footprint.Holds, OrderedSet.exists_mem_insert, number, or_assoc, or_comm, or_left_comm]

theorem holds_write (t : Transaction) (a v : Word) (n : Int) :
    (t.write a v).footprint.Holds n ↔ t.footprint.Holds n ∨ a.toInt = n := by
  cases hs : t.memory.slot? a with
  | none =>
      rw [write_of_miss hs]
      exact t.holds_miss a n
  | some i =>
      have value := ((Memory.slot?_eq_some_iff _ _ _).1 hs).1
      have number := (Memory.slot?_eq_some hs).2
      rw [write_of_hit hs, value]
      simp only [Footprint.Holds, OrderedSet.exists_mem_insert, number, or_comm, or_left_comm]

end Transaction

/-- A script adds the addresses of its actions to the footprint, and nothing else. -/
theorem Script.holds_run {α : Type} (s : Script α) (t : Transaction) (n : Int) :
    (s.run t).2.footprint.Holds n ↔
      t.footprint.Holds n ∨ ∃ x, Touches (s.accesses t.memory) x ∧ x.toInt = n := by
  induction s generalizing t with
  | done result => simp [run, accesses, not_touches_nil]
  | read a next ih =>
      rw [run, ih, t.holds_read, t.memory_read]
      simp only [accesses, touches_cons_read, exists_eq_or_imp, or_assoc]
      rfl
  | write a v next ih =>
      rw [run, ih, t.holds_write, t.memory_write]
      simp only [accesses, touches_cons_write, exists_eq_or_imp, or_assoc]

theorem Memory.holds_transact {α : Type} (m : Memory) (s : Script α) (n : Int) :
    (m.transact s).2.footprint.Holds n ↔ ∃ x, Touches (s.accesses m) x ∧ x.toInt = n := by
  have nothing : ¬ (Transaction.start m).footprint.Holds n := by
    simp [Transaction.start, Footprint.empty, Footprint.Holds]
  exact (s.holds_run (.start m) n).trans (or_iff_right nothing)

/-- **Kinds tell the footprint.** Take the addresses that the operands of a statement lead to by their
kinds: an address to itself, a pointer to itself and to what its cell holds, a literal nowhere. On every
memory these are the addresses of all the actions of the statement, and the numbers that stand in its
footprint, in the memory or not. A pointer is the first address read, and the address that its cell
holds is used after that. -/
theorem Statement.kinds_tell_footprint (m : Memory) (s : Statement) :
    (∀ x, Touches (s.script.accesses m) x ↔ x ∈ s.addresses m) ∧
    (∀ n, (m.transact s.script).2.footprint.Holds n ↔ ∃ x ∈ s.addresses m, x.toInt = n) ∧
    ∀ x, (OperandKind.pointer, x) ∈ s.declared →
      ∃ rest, s.script.accesses m = .read x (m.cell x) :: rest ∧ Touches rest (m.cell x) := by
  have touched : ∀ x, Touches (s.script.accesses m) x ↔ x ∈ s.addresses m := by
    intro x
    unfold addresses
    rw [s.declared_eq]
    exact s.opcode.effect.touches_script m s.a s.b s.c x
  refine ⟨touched, fun n => ?_, fun x pointer => ?_⟩
  · rw [m.holds_transact]
    simp only [touched]
  · rw [s.declared_eq] at pointer
    exact s.opcode.effect.pointer_first m s.a s.b s.c x pointer

-- a pointer that dangles, next to a literal that happens to be the address of a cell
example : Statement.addresses ⟨#[7, 0]⟩ (Statement.filled .writeC [0, 1]) = [0, 7] := by decide

end Retrace
