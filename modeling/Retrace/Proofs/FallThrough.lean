import Mathlib.Algebra.Order.Ring.Int
import Retrace.Proofs.Halting

/-!
# Falling through

A statement that does not jump goes on to the counter after its own. A counter is a word, and the
largest word has none after it. So a program may be too long for its last statement to be left.

* `Word.toInt_next` : the counter after a counter;
* `Machine.forward_of_advance` : a step that does not jump goes there;
* `Session.advance_to_next` : it goes to the following statement, and from the last one to a halt, in
  every program of fewer than `2 ^ 31` statements;
* `Program.padded`, `Session.advance_at_largest` : a program of `2 ^ 31` statements, and a session that
  never leaves the last of them.
-/

namespace Retrace

theorem Word.toInt_next (w : Word) : w.next.toInt = min (w.toInt + 1) (2 ^ 31 - 1) := by
  have low := w.le_toInt
  have high := w.toInt_lt
  unfold next
  split_ifs with largest
  · rw [largest]
    rfl
  · have below : w.toInt ≠ 2 ^ 31 - 1 := fun value => largest (Int32.toInt_inj.1 value)
    rw [Int32.toInt_add, show (1 : Word).toInt = 1 from rfl, Int.bmod_eq_of_le (by omega) (by omega)]
    omega

namespace Program

theorem exists_index {p : Program} {counter : Word} {st : Statement} (h : p.get? counter = some st) :
    ∃ i < p.size, counter.toInt = (i : Int) := by
  by_contra outside
  rw [(p.get?_eq_none_iff counter).2 outside] at h
  cases h

end Program

namespace Machine

theorem isHalted_iff_outside (m : Machine) :
    m.isHalted = true ↔ ¬ ∃ i < m.program.size, m.counter.toInt = (i : Int) := by
  rw [← Program.get?_eq_none_iff]
  exact Option.isNone_iff_eq_none

/-- At the end of the trace, a statement that does not jump is recorded with the next counter, and the
machine goes there. -/
theorem forward_of_advance {m : Machine} {st : Statement} (frontier : m.future = [])
    (current : m.program.get? m.counter = some st) (advances : (m.memory.transact st.script).1 = .advance) :
    m.forward.counter = m.counter.next ∧
      ∃ r, m.forward.lastStep? = some r ∧ r.before = m.counter ∧ r.after = m.counter.next := by
  have after : (Record.ofStatement m.memory m.counter st).2.after = m.counter.next :=
    congrArg (Flow.target m.counter) advances
  unfold forward
  rw [stepIn_of_statement frontier current]
  exact ⟨after, _, rfl, rfl, after⟩

theorem future_eq_nil_iff (m : Machine) : m.future = [] ↔ m.cursor = m.history.length := by
  rw [m.length_history, ← List.length_eq_zero_iff]
  omega

end Machine

namespace Session

/-- **Falling through.** At the end of the trace, a statement that does not jump is executed and moves
the counter on by one, unless it is the largest there is. So in a program of fewer than `2 ^ 31`
statements it always does, and what follows the last statement is a halt. After the last of `2 ^ 31`
statements the counter stays, and there is no halt. -/
theorem advance_to_next {s : Session} {st : Statement}
    (frontier : s.machine.cursor = s.machine.history.length)
    (current : s.machine.program.get? s.machine.counter = some st)
    (advances : (s.machine.memory.transact st.script).1 = .advance) :
    let m := s.machine
    let m' := (s.perform .stepIn).1.machine
    m'.counter.toInt = min (m.counter.toInt + 1) (2 ^ 31 - 1) ∧
      (m.program.size < 2 ^ 31 → m'.counter.toInt = m.counter.toInt + 1) ∧
      (m.counter.toInt + 1 = m.program.size → (m'.isHalted = true ↔ m.program.size < 2 ^ 31)) := by
  intro m m'
  obtain ⟨i, inside, value⟩ : ∃ i < m.program.size, m.counter.toInt = (i : Int) :=
    Program.exists_index current
  have largest := m.counter.toInt_lt
  have next : m'.counter.toInt = min (m.counter.toInt + 1) (2 ^ 31 - 1) := by
    obtain ⟨target, -⟩ := Machine.forward_of_advance (m.future_eq_nil_iff.2 frontier) current advances
    rw [← Word.toInt_next, ← target]
    exact congrArg (·.machine.counter.toInt) s.perform_stepIn
  have program : m'.program = m.program :=
    (congrArg (·.machine.program) s.perform_stepIn).trans m.kept_forward.program
  refine ⟨next, fun short => by omega, fun last => ?_⟩
  rw [m'.isHalted_iff_outside, program]
  constructor
  · intro outside
    by_contra long
    exact outside ⟨i, inside, by omega⟩
  · rintro short ⟨j, before, here⟩
    omega

/-- The second of two statements, reached by a jump. -/
theorem advance_to_next_last :
    let s := (ofMachine (.boot ⟨6, ⟨2, 4⟩, ⟨4, 6⟩⟩)).performAll
      [.load ⟨#[⟨.jmpC, 1, 0, 0⟩, ⟨.jcnz, 0, 2, 0⟩]⟩, .stepIn]
    s.machine.cursor = s.machine.history.length ∧
      s.machine.program.get? s.machine.counter = some ⟨.jcnz, 0, 2, 0⟩ ∧
      (s.machine.memory.transact (Statement.script ⟨.jcnz, 0, 2, 0⟩)).1 = .advance ∧
      (s.perform .stepIn).1.machine.counter.toInt = s.machine.counter.toInt + 1 ∧
      (s.perform .stepIn).1.machine.isHalted = true := by
  intro s
  have frontier : s.machine.cursor = s.machine.history.length := by decide +kernel
  have current : s.machine.program.get? s.machine.counter = some ⟨.jcnz, 0, 2, 0⟩ := by decide +kernel
  have advances : (s.machine.memory.transact (Statement.script ⟨.jcnz, 0, 2, 0⟩)).1 = .advance := by
    decide +kernel
  have short : s.machine.program.size < 2 ^ 31 := by decide +kernel
  obtain ⟨-, next, last⟩ := advance_to_next frontier current advances
  exact ⟨frontier, current, advances, next short, (last (by decide +kernel)).2 short⟩

end Session

/-! ## A program that is too long -/

namespace Program

/-- One statement, and another `n` times. -/
def padded (first other : Statement) (n : Nat) : Program :=
  ⟨#[first] ++ Array.replicate n other⟩

variable (first other : Statement) (n : Nat)

theorem size_padded : (padded first other n).size = n + 1 := by
  simp only [size, padded, Array.size_append, Array.size_replicate, List.size_toArray, List.length_singleton]
  omega

theorem get?_padded_zero : (padded first other n).get? 0 = some first :=
  Array.getElem?_append_left (by simp)

theorem get?_padded {counter : Word} (low : 0 < counter.toInt) (high : counter.toInt ≤ n) :
    (padded first other n).get? counter = some other := by
  obtain ⟨i, value⟩ := Int.eq_ofNat_of_zero_le (Int.le_of_lt low)
  have index : counter.index? = some i := Word.index?_eq_some_iff.2 value
  have one : #[first].size = 1 := rfl
  rw [get?, index]
  show (#[first] ++ Array.replicate n other)[i]? = some other
  rw [Array.getElem?_append_right (by omega), Array.getElem?_replicate]
  exact if_pos (by omega)

end Program

namespace Session

/-- The session that a jump leads to, executed as the first statement of a program. -/
theorem machine_first_jump (l : Layout) {p : Program} {w : Word} (first : p.get? 0 = some ⟨.jmpC, w, 0, 0⟩) :
    let s := (ofMachine (.boot l)).performAll [.load p, .stepIn]
    s.machine.program = p ∧ s.machine.counter = w ∧ s.machine.future = [] := by
  intro s
  have fresh : ((Machine.boot l).load p).future = [] := rfl
  have start : s.machine = ((Machine.boot l).load p).forward := congrArg machine (perform_stepIn _)
  rw [start]
  refine ⟨(Machine.kept_forward _).program, ?_, Machine.future_forward fresh⟩
  rw [Machine.forward, Machine.stepIn_of_statement fresh first]
  rfl

/-- At the largest counter, a statement that does not jump is followed by itself. -/
theorem stays_at_largest {s : Session} {st : Statement} (frontier : s.machine.future = [])
    (largest : s.machine.counter = 2147483647) (current : s.machine.program.get? s.machine.counter = some st)
    (advances : (s.machine.memory.transact st.script).1 = .advance) :
    let m := (s.perform .stepIn).1.machine
    m.counter = s.machine.counter ∧ m.isHalted = false ∧
      ∃ r, m.lastStep? = some r ∧ r.before = r.after ∧ r.jumped = false := by
  intro m
  have moved : m = s.machine.forward := congrArg machine s.perform_stepIn
  have stays : s.machine.counter.next = s.machine.counter := by
    rw [largest]
    rfl
  obtain ⟨next, r, recorded, before, after⟩ := Machine.forward_of_advance frontier current advances
  rw [stays] at next
  rw [moved]
  refine ⟨next, ?_, r, recorded, ?_, ?_⟩
  · rw [Machine.isHalted, next, (Machine.kept_forward _).program, current]
    rfl
  · rw [before, after, stays]
  · rw [Record.jumped, before, after]
    exact decide_eq_false (not_not.2 rfl)

/-- **The largest counter is never left.** A program of `2 ^ 31` statements jumps to its last one, which
does not jump. The counter stays, the session has not halted, and the step counts as one that went on to
the following statement. -/
theorem advance_at_largest :
    let st : Statement := ⟨.setC, 0, 1, 0⟩
    let p := Program.padded ⟨.jmpC, 2147483647, 0, 0⟩ st 2147483647
    let s := (ofMachine (.boot ⟨1, ⟨0, 0⟩, ⟨0, 0⟩⟩)).performAll [.load p, .stepIn]
    let s' := (s.perform .stepIn).1
    s.Reachable ∧ s.machine.cursor = s.machine.history.length ∧
      s.machine.program.get? s.machine.counter = some st ∧
      (s.machine.memory.transact st.script).1 = .advance ∧
      s.machine.counter.toInt + 1 = s.machine.program.size ∧
      s'.machine.counter.toInt ≠ s.machine.counter.toInt + 1 ∧ s'.machine.isHalted = false ∧
      ∃ r, s'.machine.lastStep? = some r ∧ r.before = r.after ∧ r.jumped = false := by
  intro st p s s'
  have first : p.get? 0 = some ⟨.jmpC, 2147483647, 0, 0⟩ := Program.get?_padded_zero _ _ _
  have last : p.get? 2147483647 = some st := Program.get?_padded _ _ _ (by decide) (by decide)
  have size : p.size = 2 ^ 31 := Program.size_padded _ _ _
  -- from here on the statements of `p` must not be evaluated
  clear_value p
  have reachable : s.Reachable := ⟨⟨1, ⟨0, 0⟩, ⟨0, 0⟩⟩, _, _, rfl, rfl⟩
  obtain ⟨program, counter, frontier⟩ : s.machine.program = p ∧ s.machine.counter = 2147483647 ∧
      s.machine.future = [] := machine_first_jump _ first
  have current : s.machine.program.get? s.machine.counter = some st := by rw [program, counter, last]
  obtain ⟨stays, running, recorded⟩ := stays_at_largest frontier counter current rfl
  refine ⟨reachable, s.machine.future_eq_nil_iff.1 frontier, current, rfl, ?_, ?_, running, recorded⟩
  · rw [program, counter, size]
    rfl
  · rw [stays]
    omega

end Session

end Retrace
