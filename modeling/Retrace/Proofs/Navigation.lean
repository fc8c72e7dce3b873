import Retrace.Proofs.TimeTravel

/-!
# Moving along the trace

Steps, runs and rewinds may be mixed in any order. The trace only grows, by the steps taken beyond
its end, and where a machine stands says everything about it.

* `Move` : a step, a run or a rewind; `Move.through` : the machines on the way;
* `Session.travel` : moves one after the other; `Session.peak` : the largest cursor on the way;
* `Machine.Climbs` : what motion up to a given cursor does to the trace;
* `Machine.Traces.unique` : position and length of the trace determine the machine;
* `Session.travel_path_independent` : the laws of navigation.
-/

namespace Retrace

/-- A motion along the trace. -/
inductive Move where
  | stepIn
  | stepBack
  | run (limit : Nat)
  | rewind
  deriving DecidableEq, Repr

namespace Move

def operation : Move → Session.Operation
  | stepIn => .stepIn
  | stepBack => .stepBack
  | run limit => .run limit
  | rewind => .rewind

/-- The machines a motion leads through, one for each of its steps. -/
def through (m : Machine) : Move → List Machine
  | stepIn => [m.forward]
  | stepBack => [m.back]
  | run limit => (List.range limit).map fun k => (m.run (k + 1)).1
  | rewind => (List.range m.cursor).map fun k => Machine.retreat (k + 1) m

end Move

/-- The largest cursor of some machines. -/
def Machine.summit (ms : List Machine) : Nat :=
  ms.foldr (fun m n => max m.cursor n) 0

theorem Machine.summit_cons (m : Machine) (ms : List Machine) :
    summit (m :: ms) = max m.cursor (summit ms) := rfl

namespace Session

/-- Motions one after the other. -/
def travel (s : Session) (moves : List Move) : Session :=
  s.performAll (moves.map Move.operation)

/-- The largest cursor on the way, start and end included. -/
def peak (s : Session) : List Move → Nat
  | [] => s.machine.cursor
  | move :: rest =>
    max (max s.machine.cursor (Machine.summit (move.through s.machine)))
      ((s.perform move.operation).1.peak rest)

end Session

namespace Machine

/-! ## The trace grows -/

/-- Motion from `m` to `m'` with `n` the largest cursor on the way. -/
structure Climbs (m : Machine) (n : Nat) (m' : Machine) : Prop where
  kept : Kept m m'
  grows : m.history <+: m'.history
  length : m'.history.length = max m.history.length n

theorem Climbs.refl (m : Machine) : Climbs m m.cursor m :=
  ⟨.refl m, List.prefix_refl _, (Nat.max_eq_left m.cursor_le_length).symm⟩

theorem Climbs.trans {m₁ m₂ m₃ : Machine} {n n' : Nat} (h : Climbs m₁ n m₂) (h' : Climbs m₂ n' m₃) :
    Climbs m₁ (max n n') m₃ :=
  ⟨h.kept.trans h'.kept, h.grows.trans h'.grows, by rw [h'.length, h.length, Nat.max_assoc]⟩

theorem climbs_forward (m : Machine) : Climbs m (max m.cursor m.forward.cursor) m.forward := by
  have bound := m.cursor_le_length
  obtain ⟨r, -, inside, history, cursor⟩ | ⟨r, -, frontier, history, cursor⟩ | ⟨-, frontier, same⟩ :=
    m.stepIn_cases
  · refine ⟨kept_forward m, history ▸ List.prefix_refl _, ?_⟩
    rw [history, cursor]
    omega
  · refine ⟨kept_forward m, by rw [history]; exact List.prefix_append _ _, ?_⟩
    rw [history, cursor, List.length_append, List.length_singleton]
    omega
  · rw [same, Nat.max_self]
    exact .refl m

theorem climbs_back (m : Machine) : Climbs m (max m.cursor m.back.cursor) m.back := by
  have bound := m.cursor_le_length
  obtain ⟨-, cursor, history⟩ | ⟨-, -, same⟩ := m.stepBack_cases
  · refine ⟨kept_back m, history ▸ List.prefix_refl _, ?_⟩
    rw [history]
    omega
  · rw [same, Nat.max_self]
    exact .refl m

theorem climbs_iterate {f : Machine → Machine} (hf : ∀ m, Climbs m (max m.cursor (f m).cursor) (f m))
    (n : Nat) (m : Machine) :
    Climbs m (max m.cursor (summit ((List.range n).map fun k => f^[k + 1] m))) (f^[n] m) := by
  induction n generalizing m with
  | zero =>
      simp only [List.range_zero, List.map_nil, summit, List.foldr_nil, Nat.max_zero]
      exact .refl m
  | succ n ih =>
      have passed : ((List.range (n + 1)).map fun k => f^[k + 1] m) =
          f m :: (List.range n).map fun k => f^[k + 1] (f m) := by
        rw [List.range_succ_eq_map, List.map_cons, List.map_map]
        rfl
      have largest : max m.cursor (summit ((List.range (n + 1)).map fun k => f^[k + 1] m)) =
          max (max m.cursor (f m).cursor)
            (max (f m).cursor (summit ((List.range n).map fun k => f^[k + 1] (f m)))) := by
        rw [passed, summit_cons]
        omega
      rw [largest, Function.iterate_succ_apply]
      exact (hf m).trans (ih (f m))

end Machine

namespace Session

theorem climbs_perform (s : Session) (move : Move) :
    s.machine.Climbs (max s.machine.cursor (Machine.summit (move.through s.machine)))
      (s.perform move.operation).1.machine := by
  cases move with
  | stepIn =>
      rw [Move.operation, perform_stepIn]
      simpa [Move.through, Machine.summit] using Machine.climbs_forward s.machine
  | stepBack =>
      rw [Move.operation, perform_stepBack]
      simpa [Move.through, Machine.summit] using Machine.climbs_back s.machine
  | run limit =>
      rw [Move.operation, perform_run, Machine.run_fst]
      simpa only [Move.through, Machine.run_fst] using Machine.climbs_iterate Machine.climbs_forward limit s.machine
  | rewind =>
      rw [Move.operation, perform_rewind, Machine.rewind_fst]
      simpa only [Move.through, Machine.retreat_eq] using Machine.climbs_iterate Machine.climbs_back _ s.machine

/-- Moves keep layout, program and input, and extend the trace up to the largest cursor. -/
theorem climbs_travel (s : Session) (moves : List Move) :
    s.machine.Climbs (s.peak moves) (s.travel moves).machine := by
  induction moves generalizing s with
  | nil => exact .refl s.machine
  | cons move rest ih => exact (s.climbs_perform move).trans (ih (s.perform move.operation).1)

end Session

/-! ## Position determines the machine -/

namespace Machine

theorem past_eq (m : Machine) : m.past = (m.history.take m.cursor).reverse := by
  simp [history, cursor]

theorem future_eq (m : Machine) : m.future = m.history.drop m.cursor := by
  simp [history, cursor]

namespace Traces

variable {input : List Word} {m m' : Machine}

/-- Two machines at the same place of their traces are in the same state. -/
theorem state_unique (h : Traces input m) (h' : Traces input m') (kept : Kept m m')
    (cursor : m.cursor = m'.cursor) : m.memory = m'.memory ∧ m.counter = m'.counter := by
  have state := h'.state
  rw [kept.program, kept.layout, ← cursor, h.state] at state
  simpa using state

/-- Traces of one program and input differ in their lengths only. -/
theorem history_unique (h : Traces input m) (h' : Traces input m') (kept : Kept m m')
    (length : m.history.length = m'.history.length) : m.history = m'.history := by
  apply List.ext_getElem length
  intro i hi hi'
  -- both records are those of the one state the interpreter has after `i` steps
  obtain ⟨x, hx, hr⟩ := h.trace i _ (List.getElem?_eq_getElem hi)
  obtain ⟨x', hx', hr'⟩ := h'.trace i _ (List.getElem?_eq_getElem hi')
  rw [kept.program, kept.layout, hx] at hx'
  cases hx'
  rw [kept.program, hr] at hr'
  exact Option.some.inj hr'

theorem unique (h : Traces input m) (h' : Traces input m') (kept : Kept m m')
    (cursor : m.cursor = m'.cursor) (length : m.history.length = m'.history.length) : m = m' := by
  obtain ⟨memory, counter⟩ := h.state_unique h' kept cursor
  have history := h.history_unique h' kept length
  have past : m.past = m'.past := by rw [past_eq, past_eq, history, cursor]
  have future : m.future = m'.future := by rw [future_eq, future_eq, history, cursor]
  obtain ⟨layout, program, pending⟩ := kept
  cases m
  cases m'
  simp_all

end Traces

end Machine

namespace Session

theorem Reachable.traces {s : Session} (h : s.Reachable) : ∃ input, s.machine.Traces input := by
  obtain ⟨layout, m, ops, created, rfl⟩ := h
  exact ⟨_, ((follows_create created).performAll ops).traces⟩

/-- A motion concerns the machine alone. -/
theorem perform_operation (s : Session) (move : Move) :
    (s.perform move.operation).1 = s.withMachine (s.perform move.operation).1.machine := by
  cases move with
  | stepIn => rw [Move.operation, perform_stepIn]
  | stepBack => rw [Move.operation, perform_stepBack]
  | run limit => rw [Move.operation, perform_run]
  | rewind => rw [Move.operation, perform_rewind]

theorem travel_eq (s : Session) (moves : List Move) :
    s.travel moves = s.withMachine (s.travel moves).machine := by
  induction moves generalizing s with
  | nil => rfl
  | cons move rest ih =>
      calc s.travel (move :: rest)
        _ = (s.perform move.operation).1.withMachine (s.travel (move :: rest)).machine :=
          ih (s.perform move.operation).1
        _ = s.withMachine (s.travel (move :: rest)).machine := by rw [perform_operation]

theorem traces_travel {s : Session} {input : List Word} (h : s.machine.Traces input) (moves : List Move) :
    (s.travel moves).machine.Traces input := by
  induction moves generalizing s with
  | nil => exact h
  | cons move rest ih =>
      refine ih (s := (s.perform move.operation).1) ?_
      cases move with
      | stepIn => rw [Move.operation, perform_stepIn]; exact h.forward
      | stepBack => rw [Move.operation, perform_stepBack]; exact h.back
      | run limit => rw [Move.operation, perform_run, Machine.run_fst]; exact h.iterate_forward limit
      | rewind => rw [Move.operation, perform_rewind, Machine.rewind_fst]; exact h.iterate_back _

/-- Moves that end at the same place of traces of the same length end in the same session. -/
theorem travel_unique {s : Session} {input : List Word} (h : s.machine.Traces input)
    (moves moves' : List Move) (cursor : (s.travel moves).machine.cursor = (s.travel moves').machine.cursor)
    (peak : s.peak moves = s.peak moves') : s.travel moves = s.travel moves' := by
  have climbs := s.climbs_travel moves
  have climbs' := s.climbs_travel moves'
  have kept : (s.travel moves).machine.Kept (s.travel moves').machine :=
    climbs.kept.symm.trans climbs'.kept
  have length : (s.travel moves).machine.history.length = (s.travel moves').machine.history.length := by
    rw [climbs.length, climbs'.length, peak]
  rw [s.travel_eq moves, s.travel_eq moves',
    (traces_travel h moves).unique (traces_travel h moves') kept cursor length]

end Session

/-! ## What a step forward answers -/

namespace Machine

theorem replayed_iff (m : Machine) : (∃ r, m.stepIn.2 = .replayed r) ↔ m.cursor < m.history.length := by
  obtain ⟨r, step, inside, -⟩ | ⟨r, step, frontier, -⟩ | ⟨step, frontier, -⟩ := m.stepIn_cases
  · exact ⟨fun _ => inside, fun _ => ⟨r, step⟩⟩
  · simp [step, frontier]
  · simp [step, frontier]

theorem executed_iff (m : Machine) (r : Record) :
    m.stepIn.2 = .executed r ↔ m.forward.history = m.history ++ [r] := by
  obtain ⟨r', step, -, history, -⟩ | ⟨r', step, -, history, -⟩ | ⟨step, -, same⟩ := m.stepIn_cases
  · simp [step, history]
  · simp [step, history]
  · simp [step, same]

theorem halted_iff (m : Machine) :
    m.stepIn.2 = .halted ↔
      ¬ m.cursor < m.history.length ∧ ¬ ∃ r, m.forward.history = m.history ++ [r] := by
  simp only [← replayed_iff, ← executed_iff]
  cases m.stepIn.2 <;> simp

end Machine

namespace Session

theorem reply_stepIn (s : Session) : (s.perform .stepIn).2.1 = .stepped s.machine.stepIn.2 := by
  rw [← stepIn_step]
  rfl

theorem reply_stepBack (s : Session) : (s.perform .stepBack).2.1 = .moved s.machine.stepBack.isSome := by
  have one := s.stepBack_eq
  unfold perform
  cases h : s.stepBack with
  | none =>
      rw [h, Option.map_none] at one
      rw [Option.map_eq_none_iff.1 one.symm]
      rfl
  | some x =>
      rw [h, Option.map_some] at one
      obtain ⟨m, hm, -⟩ := Option.map_eq_some_iff.1 one.symm
      rw [hm]
      rfl

theorem machine_travel_stepIn_stepBack (s : Session) :
    (s.travel [.stepIn, .stepBack]).machine = s.machine.forward.back := by
  change ((s.perform .stepIn).1.perform .stepBack).1.machine = _
  rw [perform_stepBack, perform_stepIn]

theorem machine_travel_stepBack_stepIn (s : Session) :
    (s.travel [.stepBack, .stepIn]).machine = s.machine.back.forward := by
  change ((s.perform .stepBack).1.perform .stepIn).1.machine = _
  rw [perform_stepIn, perform_stepBack]

/-- A step forward that moved is undone by a step back, as far as the state goes. -/
theorem stepBack_of_stepIn {s : Session} {input : List Word} (h : s.machine.Traces input)
    (moved : s.machine.stepIn.2 ≠ .halted) :
    let again := (s.travel [.stepIn, .stepBack]).machine
    again.memory = s.machine.memory ∧ again.counter = s.machine.counter ∧ again.cursor = s.machine.cursor := by
  have cursor : s.machine.cursor = (s.travel [.stepIn, .stepBack]).machine.cursor := by
    rw [machine_travel_stepIn_stepBack]
    have there : s.machine.forward.cursor = s.machine.cursor + 1 := by
      obtain ⟨r, -, -, -, cursor⟩ | ⟨r, -, -, -, cursor⟩ | ⟨halted, -⟩ := s.machine.stepIn_cases
      · exact cursor
      · exact cursor
      · exact absurd halted moved
    obtain ⟨-, cursor, -⟩ | ⟨-, cursor, -⟩ := s.machine.forward.stepBack_cases <;> omega
  obtain ⟨memory, counter⟩ :=
    h.state_unique (traces_travel h [.stepIn, .stepBack]) (s.climbs_travel _).kept cursor
  exact ⟨memory.symm, counter.symm, cursor.symm⟩

/-- A step back that moved is undone by a step forward. -/
theorem stepIn_of_stepBack {s : Session} {input : List Word} (h : s.machine.Traces input)
    (moved : s.machine.stepBack.isSome) : s.travel [.stepBack, .stepIn] = s := by
  obtain ⟨-, cursor, history⟩ | ⟨stuck, -⟩ := s.machine.stepBack_cases
  · have inside : s.machine.back.cursor < s.machine.back.history.length := by
      have := s.machine.cursor_le_length
      rw [history]
      omega
    obtain ⟨r, -, -, -, there⟩ | ⟨r, -, frontier, -⟩ | ⟨-, frontier, -⟩ := s.machine.back.stepIn_cases
    -- the trace already holds the step, so going back over it does not raise the largest cursor
    · refine travel_unique h [.stepBack, .stepIn] [] ?_ ?_
      · rw [machine_travel_stepBack_stepIn, there, ← cursor]
        rfl
      · simp only [peak, Move.through, Move.operation, perform_stepBack, perform_stepIn, Machine.summit,
          List.foldr_cons, List.foldr_nil, there]
        omega
    · omega
    · omega
  · rw [stuck] at moved
    exact absurd moved (by simp)

/-- **The laws of navigation.** Motion only ever appends to the trace, exactly up to the largest
cursor on the way. A step forward replays inside the trace, executes where that appends to it, and
else halts. Place and largest cursor determine where motion ends, whatever the way; so a step
forward and a step back cancel. -/
theorem travel_path_independent {s : Session} (reachable : s.Reachable) :
    (∀ moves, s.machine.history <+: (s.travel moves).machine.history ∧
      (s.travel moves).machine.history.length = max s.machine.history.length (s.peak moves)) ∧
    (∀ moves,
      let here := (s.travel moves).machine
      let next := ((s.travel moves).perform .stepIn).1.machine
      let reply := ((s.travel moves).perform .stepIn).2.1
      ((∃ r, reply = .stepped (.replayed r)) ↔ here.cursor < here.history.length) ∧
      (∀ r, reply = .stepped (.executed r) ↔ next.history = here.history ++ [r]) ∧
      (reply = .stepped .halted ↔
        ¬ here.cursor < here.history.length ∧ ¬ ∃ r, next.history = here.history ++ [r])) ∧
    (∀ moves moves', (s.travel moves).machine.cursor = (s.travel moves').machine.cursor →
      s.peak moves = s.peak moves' → s.travel moves = s.travel moves') ∧
    ((s.perform .stepIn).2.1 ≠ .stepped .halted →
      let again := (s.travel [.stepIn, .stepBack]).machine
      again.memory = s.machine.memory ∧ again.counter = s.machine.counter ∧
        again.cursor = s.machine.cursor) ∧
    ((s.perform .stepBack).2.1 = .moved true → s.travel [.stepBack, .stepIn] = s) := by
  obtain ⟨input, traces⟩ := reachable.traces
  refine ⟨fun moves => ?_, fun moves => ?_, fun moves moves' => ?_, fun moved => ?_, fun moved => ?_⟩
  · have climbs := s.climbs_travel moves
    exact ⟨climbs.grows, climbs.length⟩
  · simp only [reply_stepIn, perform_stepIn, Reply.stepped.injEq]
    exact ⟨Machine.replayed_iff _, Machine.executed_iff _, Machine.halted_iff _⟩
  · exact travel_unique traces moves moves'
  · rw [reply_stepIn] at moved
    exact stepBack_of_stepIn traces fun halted => moved (by rw [halted])
  · rw [reply_stepBack] at moved
    exact stepIn_of_stepBack traces (by simpa using moved)

/-- Three steps at once, back to the start and one step again, or three single steps and two back: both
end behind the first of three recorded steps. -/
theorem travel_path_independent_twoWays :
    let s := (ofMachine (.boot ⟨6, ⟨2, 4⟩, ⟨4, 6⟩⟩)).performAll
      [.load ⟨#[⟨.set, 4, 2, 0⟩, ⟨.write, 3, 2, 0⟩, ⟨.jmpC, 0, 0, 0⟩]⟩, .feed [7, 5]]
    let atOnce : List Move := [.run 3, .rewind, .stepIn]
    let stepwise : List Move := [.stepIn, .stepIn, .stepIn, .stepBack, .stepBack]
    s.Reachable ∧ (s.travel atOnce).machine.cursor = 1 ∧ (s.travel stepwise).machine.cursor = 1 ∧
      s.peak atOnce = 3 ∧ s.peak stepwise = 3 ∧ s.travel atOnce = s.travel stepwise ∧
      (s.travel stepwise).machine.history.length = 3 ∧ (s.travel stepwise).machine.counter = 1 ∧
      (s.travel stepwise).machine.memory = ⟨#[0, 0, 7, 5, 7, 0]⟩ := by
  intro s atOnce stepwise
  have reachable : s.Reachable := ⟨⟨6, ⟨2, 4⟩, ⟨4, 6⟩⟩, _, _, rfl, rfl⟩
  obtain ⟨grows, -, same, -⟩ := travel_path_independent reachable
  have cursors : (s.travel atOnce).machine.cursor = 1 ∧ (s.travel stepwise).machine.cursor = 1 := by decide +kernel
  have peaks : s.peak atOnce = 3 ∧ s.peak stepwise = 3 := by decide +kernel
  have length : (s.travel stepwise).machine.history.length = 3 := by
    rw [(grows stepwise).2, peaks.2]
    decide +kernel
  refine ⟨reachable, cursors.1, cursors.2, peaks.1, peaks.2, ?_, length, by decide +kernel, by decide +kernel⟩
  exact same atOnce stepwise (cursors.1.trans cursors.2.symm) (peaks.1.trans peaks.2.symm)

end Session

end Retrace
