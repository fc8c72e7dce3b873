import Retrace.Memory
import Retrace.Statement

/-!
# Recorded steps

* `Record` : what one executed statement did;
* `Record.jumped` : whether it left the sequential path;
* `Record.ofStatement` : executes a statement on a memory and records it.
-/

namespace Retrace

/-- One executed statement: the counters around it, its writes and its footprint. -/
structure Record where
  statement : Statement
  before : Word
  after : Word
  commit : Commit
  footprint : Footprint
  deriving DecidableEq

namespace Record

/-- The step did not go on to the following statement. -/
def jumped (r : Record) : Bool :=
  r.after ≠ r.before.next

end Record

/-- The counter after a statement at `counter`. -/
def Flow.target (counter : Word) : Flow → Word
  | advance => counter.next
  | jump target => target

/-- Executes a statement at `counter`: the memory after it and the record of the step. -/
def Record.ofStatement (m : Memory) (counter : Word) (s : Statement) : Memory × Record :=
  let (flow, t) := m.transact s.script
  (t.memory, ⟨s, counter, flow.target counter, t.commit, t.footprint⟩)

end Retrace
