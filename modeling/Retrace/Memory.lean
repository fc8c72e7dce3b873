import Retrace.OrderedSet
import Retrace.Script

/-!
# Memory

A memory is a row of words. Scripts run on it inside a transaction: an address outside the row
reads as zero and swallows writes, every write that lands is recorded, and the addresses touched
are collected.

* `Memory` : the cells; `Memory.fetch`, `Memory.put` : clipped access to one cell;
* `Memory.Fits`, `Memory.allocate?` : how many cells a memory can have;
* `Write`, `Commit` : the recorded writes of a transaction, in order;
* `Footprint` : the addresses a transaction touched;
* `Transaction` : a memory with the record so far; `Script.run` answers a script from it;
* `Memory.transact` : a whole transaction;
* `Memory.undo`, `Memory.redo` : put the old or the new values of a commit back, in stored order.
-/

namespace Retrace

structure Memory where
  cells : Array Word
  deriving DecidableEq, Repr

/-- A write that landed. -/
structure Write where
  address : Size
  newValue : Word
  oldValue : Word
  deriving DecidableEq, Repr

structure Commit where
  records : List Write
  deriving DecidableEq, Repr

/-- The addresses a transaction read, wrote, and tried outside the memory. -/
structure Footprint where
  read : OrderedSet Size
  write : OrderedSet Size
  outOfBounds : OrderedSet Word
  deriving DecidableEq

def Footprint.empty : Footprint := ⟨.empty, .empty, .empty⟩

namespace Memory

def zeros (size : Nat) : Memory := ⟨Array.replicate size 0⟩

def size (m : Memory) : Nat := m.cells.size

/-- A cell has four bytes, and no block of memory has more bytes than the largest signed 64-bit number. -/
def Fits (size : Nat) : Prop := 4 * size ≤ 9223372036854775807

instance (size : Nat) : Decidable (Fits size) := inferInstanceAs (Decidable (4 * size ≤ _))

/-- A new memory of `size` cells, unless it is too large to be. -/
def allocate? (size : Nat) : Option Memory := if Fits size then some (zeros size) else none

def get? (m : Memory) (i : Nat) : Option Word := m.cells[i]?

def set (m : Memory) (i : Nat) (value : Word) : Memory :=
  ⟨m.cells.setIfInBounds i value⟩

@[simp] theorem size_zeros (n : Nat) : (zeros n).size = n := by
  simp [zeros, size]

@[simp] theorem size_set (m : Memory) (i : Nat) (value : Word) : (m.set i value).size = m.size := by
  simp [set, size]

theorem get?_set (m : Memory) (i j : Nat) (value : Word) :
    (m.set i value).get? j = if i = j ∧ j < m.size then some value else m.get? j := by
  simp only [set, get?, size, Array.getElem?_setIfInBounds]
  grind

def cleared (m : Memory) : Memory := zeros m.size

/-- Copies `values` to the cells from `start` on. What would land past the end is dropped. -/
def load (m : Memory) (start : Nat) : List Word → Memory
  | [] => m
  | value :: rest => (m.set start value).load (start + 1) rest

@[simp] theorem size_load (m : Memory) (start : Nat) (values : List Word) :
    (m.load start values).size = m.size := by
  induction values generalizing m start with
  | nil => rfl
  | cons value rest ih => simp [load, ih]

/-- The cell an address names, if it lies in the memory. -/
def slot? (m : Memory) (address : Word) : Option Nat :=
  match address.index? with
  | none => none
  | some i => if i < m.size then some i else none

/-- The content at an address, zero outside the memory. -/
def fetch (m : Memory) (address : Word) : Word :=
  match m.slot? address with
  | none => 0
  | some i => (m.get? i).getD 0

def put (m : Memory) (address value : Word) : Memory :=
  match m.slot? address with
  | none => m
  | some i => m.set i value

/-- The old value of every record, in stored order. Records outside the memory are skipped. -/
def undo (m : Memory) (c : Commit) : Memory :=
  c.records.foldl (fun m w => m.set w.address.toNat w.oldValue) m

def redo (m : Memory) (c : Commit) : Memory :=
  c.records.foldl (fun m w => m.set w.address.toNat w.newValue) m

end Memory

/-! ## Transactions -/

structure Transaction where
  memory : Memory
  commit : Commit
  footprint : Footprint

namespace Transaction

def start (m : Memory) : Transaction := ⟨m, ⟨[]⟩, .empty⟩

def miss (t : Transaction) (address : Word) : Transaction :=
  { t with footprint :=
      { t.footprint with outOfBounds := t.footprint.outOfBounds.insert address } }

def noteRead (t : Transaction) (address : Word) : Transaction :=
  match t.memory.slot? address with
  | none => t.miss address
  | some i =>
    { t with footprint := { t.footprint with read := t.footprint.read.insert (UInt64.ofNat i) } }

def read (t : Transaction) (address : Word) : Word × Transaction :=
  (t.memory.fetch address, t.noteRead address)

def write (t : Transaction) (address value : Word) : Transaction :=
  match t.memory.slot? address with
  | none => t.miss address
  | some i =>
    let record : Write :=
      { address := UInt64.ofNat i, newValue := value, oldValue := t.memory.fetch address }
    { memory := t.memory.set i value
      commit := ⟨t.commit.records ++ [record]⟩
      footprint := { t.footprint with write := t.footprint.write.insert record.address } }

end Transaction

namespace Script

variable {α : Type}

def run : Script α → Transaction → α × Transaction
  | done result, t => (result, t)
  | read address next, t => (next (t.read address).1).run (t.read address).2
  | write address value next, t => next.run (t.write address value)

/-- The actions of a script on a memory, in order, those outside the memory included. -/
def accesses : Script α → Memory → List Access
  | done _, _ => []
  | read address next, m =>
    .read address (m.fetch address) :: (next (m.fetch address)).accesses m
  | write address value next, m => .write address value :: next.accesses (m.put address value)

end Script

def Memory.transact {α : Type} (m : Memory) (s : Script α) : α × Transaction :=
  s.run (.start m)

end Retrace
