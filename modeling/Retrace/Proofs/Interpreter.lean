import Retrace.Program
import Retrace.Proofs.Transaction

/-!
# The plain interpreter

The interpreter executes a program and remembers nothing but the memory and the counter. It is the
yardstick for the stepping machine.

* `Interpreter` : memory and counter; `Interpreter.step` : one statement, unless the counter names
  none;
* `Interpreter.steps` : the state after a number of steps, if that many can be taken;
* `Interpreter.record?` : what a recorder of the next step writes down;
* `Interpreter.step_of_record?` : the record of a step patches the memory forward and backward.
-/

namespace Retrace

/-- The state of the plain interpreter. -/
structure Interpreter where
  memory : Memory
  counter : Word
  deriving DecidableEq, Repr

namespace Interpreter

/-- Executes the statement at the counter. -/
def step (p : Program) (x : Interpreter) : Option Interpreter :=
  match p.get? x.counter with
  | none => none
  | some s =>
    let (flow, memory) := s.script.eval x.memory
    some ⟨memory, flow.target x.counter⟩

/-- The state after `n` steps. -/
def steps (p : Program) : Nat → Interpreter → Option Interpreter
  | 0, x => some x
  | n + 1, x => (steps p n x).bind (step p)

/-- The record of the step from this state. -/
def record? (p : Program) (x : Interpreter) : Option Record :=
  (p.get? x.counter).map fun s => (Record.ofStatement x.memory x.counter s).2

theorem steps_succ {p : Program} {n : Nat} {x y : Interpreter} (h : steps p n x = some y) :
    steps p (n + 1) x = step p y := by
  rw [steps, h]
  rfl

/-- A state with a step to take is one with a record. -/
theorem record?_eq_some {p : Program} {x : Interpreter} {r : Record} (h : x.record? p = some r) :
    ∃ s, p.get? x.counter = some s ∧ r = (Record.ofStatement x.memory x.counter s).2 := by
  obtain ⟨s, hs, hr⟩ := Option.map_eq_some_iff.1 h
  exact ⟨s, hs, hr.symm⟩

/-- Executing for the record and executing plainly come to the same. -/
theorem step_eq {p : Program} {x : Interpreter} {s : Statement} (h : p.get? x.counter = some s) :
    x.step p = some ⟨(Record.ofStatement x.memory x.counter s).1,
      (Record.ofStatement x.memory x.counter s).2.after⟩ := by
  have same := s.script.run_eq_eval (.start x.memory)
  simp only [step, h]
  rw [← show _ = s.script.eval x.memory from same]
  rfl

/-- The record of a step holds its counters, and its writes lead to the next memory and back. -/
theorem step_of_record? {p : Program} {x : Interpreter} {r : Record} (h : x.record? p = some r) :
    r.before = x.counter ∧
      ∃ y, x.step p = some y ∧ y.counter = r.after ∧ x.memory.redo r.commit = y.memory ∧
        y.memory.undo r.commit = x.memory := by
  obtain ⟨s, hs, rfl⟩ := record?_eq_some h
  refine ⟨rfl, _, step_eq hs, rfl, ?_, ?_⟩
  · exact x.memory.redo_transact s.script
  · exact x.memory.undo_transact s.script_writesLast

theorem size_step {p : Program} {x y : Interpreter} (h : x.step p = some y) :
    y.memory.size = x.memory.size := by
  unfold step at h
  split at h
  · exact absurd h (by simp)
  · next s _ =>
    cases h
    exact s.script.size_eval x.memory

theorem size_steps {p : Program} {n : Nat} {x y : Interpreter} (h : steps p n x = some y) :
    y.memory.size = x.memory.size := by
  induction n generalizing y with
  | zero =>
      cases h
      rfl
  | succ n ih =>
      obtain ⟨z, hz, hy⟩ := Option.bind_eq_some_iff.1 h
      rw [size_step hy, ih hz]

end Interpreter

end Retrace
