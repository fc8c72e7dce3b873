import Retrace.Proofs.Navigation

/-!
# Halting and runs

A step forward looks at the trace first and at the counter second. All the same the counter alone
tells whether a machine halts, since every recorded step starts at a statement.

* `Program.get?_eq_none_iff` : which counters name no statement;
* `Machine.moves` : how many of a number of steps forward move; a run takes as many
  (`Session.run_outcome`), in one go or in two (`Machine.moves_add`);
* `Machine.Traces.isHalted_iff` : a machine is halted exactly if its next step says so;
* `Session.halting_and_runs` : the laws of halting and running.
-/

namespace Retrace

theorem Program.get?_eq_none_iff (p : Program) (counter : Word) :
    p.get? counter = none ↔ ¬ ∃ i < p.size, counter.toInt = (i : Int) := by
  unfold get? Word.index? size
  by_cases sign : 0 ≤ counter.toInt
  · rw [if_pos sign, Option.bind_some, Array.getElem?_eq_none_iff]
    constructor
    · rintro past ⟨i, lt, eq⟩
      omega
    · intro none
      by_contra inside
      exact none ⟨counter.toInt.toNat, by omega, by omega⟩
  · rw [if_neg sign]
    refine ⟨fun _ => ?_, fun _ => rfl⟩
    rintro ⟨i, -, eq⟩
    omega

namespace Machine

/-! ## Steps that move -/

/-- The number of steps forward, out of `n`, before the machine halts. -/
def moves : Nat → Machine → Nat
  | 0, _ => 0
  | n + 1, m => if m.stepIn.2 = .halted then 0 else moves n m.forward + 1

theorem moves_of_halted {m : Machine} (h : m.stepIn.2 = .halted) (n : Nat) : moves n m = 0 := by
  cases n with
  | zero => rfl
  | succ n => exact if_pos h

theorem moves_succ {m : Machine} (h : m.stepIn.2 ≠ .halted) (n : Nat) :
    moves (n + 1) m = moves n m.forward + 1 :=
  if_neg h

theorem moves_le (n : Nat) (m : Machine) : moves n m ≤ n := by
  induction n generalizing m with
  | zero => exact Nat.le_refl 0
  | succ n ih =>
      by_cases h : m.stepIn.2 = .halted
      · rw [moves_of_halted h]
        exact Nat.zero_le _
      · rw [moves_succ h]
        exact Nat.succ_le_succ (ih m.forward)

theorem moving_of_lt_moves {n i : Nat} {m : Machine} (h : i < moves n m) :
    (forward^[i] m).stepIn.2 ≠ .halted := by
  induction n generalizing i m with
  | zero => exact absurd h (Nat.not_lt_zero i)
  | succ n ih =>
      by_cases stuck : m.stepIn.2 = .halted
      · rw [moves_of_halted stuck] at h
        exact absurd h (Nat.not_lt_zero i)
      · rw [moves_succ stuck] at h
        cases i with
        | zero => exact stuck
        | succ i =>
            rw [Function.iterate_succ_apply]
            exact ih (by omega)

theorem halted_of_moves_lt {n : Nat} {m : Machine} (h : moves n m < n) :
    (forward^[moves n m] m).stepIn.2 = .halted := by
  induction n generalizing m with
  | zero => exact absurd h (Nat.not_lt_zero _)
  | succ n ih =>
      by_cases stuck : m.stepIn.2 = .halted
      · rw [moves_of_halted stuck]
        exact stuck
      · rw [moves_succ stuck] at h ⊢
        rw [Function.iterate_succ_apply]
        exact ih (by omega)

/-- Steps beyond those that move change nothing. -/
theorem iterate_moves (n : Nat) (m : Machine) : forward^[moves n m] m = forward^[n] m := by
  induction n generalizing m with
  | zero => rfl
  | succ n ih =>
      by_cases stuck : m.stepIn.2 = .halted
      · rw [moves_of_halted stuck]
        exact (Function.iterate_fixed (forward_eq_self stuck) (n + 1)).symm
      · rw [moves_succ stuck, Function.iterate_succ_apply, Function.iterate_succ_apply]
        exact ih m.forward

theorem moves_add (a b : Nat) (m : Machine) : moves (a + b) m = moves a m + moves b (forward^[a] m) := by
  induction a generalizing m with
  | zero => simp [moves]
  | succ a ih =>
      by_cases stuck : m.stepIn.2 = .halted
      · have still := forward_eq_self stuck
        rw [moves_of_halted stuck, moves_of_halted stuck, Function.iterate_fixed still,
          moves_of_halted stuck]
      · rw [Nat.add_right_comm, moves_succ stuck, moves_succ stuck, ih, Function.iterate_succ_apply]
        omega

/-- Every step that moves adds one to the cursor. -/
theorem cursor_iterate_forward (n : Nat) (m : Machine) :
    (forward^[n] m).cursor = m.cursor + moves n m := by
  induction n generalizing m with
  | zero => rfl
  | succ n ih =>
      rw [Function.iterate_succ_apply, ih]
      obtain ⟨r, step, -, -, next⟩ | ⟨r, step, -, -, next⟩ | ⟨step, -, same⟩ := m.stepIn_cases
      · rw [moves_succ (by rw [step]; simp), next]
        omega
      · rw [moves_succ (by rw [step]; simp), next]
        omega
      · rw [moves_of_halted step, same, moves_of_halted step]

/-- Runs that start and end at the same cursors take as many steps. -/
theorem moves_eq_of_cursor {m m' : Machine} {n : Nat} (start : m.cursor = m'.cursor)
    (last : (forward^[n] m).cursor = (forward^[n] m').cursor) : moves n m = moves n m' := by
  rw [cursor_iterate_forward, cursor_iterate_forward] at last
  omega

theorem kept_iterate_forward (n : Nat) (m : Machine) : Kept m (forward^[n] m) :=
  .iterate kept_forward (.refl m) n

theorem runFrom_snd (taken limit : Nat) (m : Machine) :
    (runFrom taken limit m).2 = taken + moves limit m := by
  induction limit generalizing taken m with
  | zero => rfl
  | succ limit ih =>
      unfold runFrom
      split
      · next m' h => rw [moves_of_halted (by rw [h]), Nat.add_zero]
      · next m' step moving h =>
        have moved : m.stepIn.2 ≠ .halted := fun stuck => moving (by rw [h] at stuck; exact stuck)
        rw [moves_succ moved, show m.forward = m' from congrArg Prod.fst h, ih]
        omega

theorem run_snd (limit : Nat) (m : Machine) :
    (m.run limit).2 = ⟨moves limit m, (forward^[limit] m).isHalted⟩ := by
  have steps := runFrom_snd 0 limit m
  have last := runFrom_fst 0 limit m
  unfold run
  rw [Nat.zero_add] at steps
  simp only [steps, last]

/-! ## The end of the trace -/

/-- A machine at the end of its trace stays there when it moves on. -/
theorem future_forward {m : Machine} (h : m.future = []) : m.forward.future = [] := by
  unfold forward
  cases hs : m.program.get? m.counter with
  | none => rw [stepIn_of_end h hs]; exact h
  | some s => rw [stepIn_of_statement h hs]; exact h

theorem future_iterate_forward {m : Machine} (h : m.future = []) (n : Nat) : (forward^[n] m).future = [] :=
  Function.Iterate.rec (fun x : Machine => x.future = []) h (fun _ => future_forward) n

theorem history_eq_reverse {m : Machine} (h : m.future = []) : m.history = m.past.reverse := by
  rw [history, h, List.append_nil]

/-! ## Halted machines -/

/-- A recorded step ahead starts at a statement. -/
theorem Traces.statement_of_future {input : List Word} {m : Machine} (h : Traces input m) {r : Record}
    {rest : List Record} (hf : m.future = r :: rest) : ∃ s, m.program.get? m.counter = some s := by
  obtain ⟨x, hx, hr⟩ := h.trace m.cursor r (getElem?_history_future hf)
  rw [h.state] at hx
  cases hx
  obtain ⟨s, hs, -⟩ := Interpreter.record?_eq_some hr
  exact ⟨s, hs⟩

theorem Traces.isHalted_iff {input : List Word} {m : Machine} (h : Traces input m) :
    m.isHalted = true ↔ m.stepIn.2 = .halted := by
  unfold isHalted
  cases hf : m.future with
  | cons r rest =>
      obtain ⟨s, hs⟩ := h.statement_of_future hf
      rw [stepIn_of_future hf, hs]
      simp
  | nil =>
      cases hs : m.program.get? m.counter with
      | some s =>
          rw [stepIn_of_statement hf hs]
          simp
      | none =>
          rw [stepIn_of_end hf hs]
          simp

end Machine

namespace Session

/-! ## Runs of a session -/

theorem stepIn_of_halted {s : Session} (h : s.machine.stepIn.2 = .halted) :
    s.stepIn = (s, .halted, .empty) := by
  unfold stepIn
  rw [show s.machine.stepIn = (s.machine.stepIn.1, .halted) from Prod.ext rfl h]

theorem runFrom_of_halted {s : Session} (h : s.machine.stepIn.2 = .halted) (taken : Nat) (sent : Emission)
    (limit : Nat) : runFrom taken sent limit s = (s, taken, sent) := by
  cases limit with
  | zero => rfl
  | succ limit =>
      unfold runFrom
      rw [stepIn_of_halted h]

theorem runFrom_of_moving {s : Session} (h : s.machine.stepIn.2 ≠ .halted) (taken : Nat) (sent : Emission)
    (limit : Nat) :
    runFrom taken sent (limit + 1) s =
      runFrom (taken + 1) (sent ++ s.stepIn.2.2) limit (s.withMachine s.machine.forward) := by
  have one := s.stepIn_fst
  have answer := s.stepIn_step
  rw [runFrom]
  split
  · next eq =>
    rw [eq] at answer
    exact absurd answer.symm h
  · next eq =>
    rw [eq] at one
    rw [eq, ← show _ = s.withMachine s.machine.forward from one]

theorem runFrom_steps (taken : Nat) (sent : Emission) (limit : Nat) (s : Session) :
    (runFrom taken sent limit s).2.1 = taken + Machine.moves limit s.machine := by
  induction limit generalizing taken sent s with
  | zero => rfl
  | succ limit ih =>
      by_cases stuck : s.machine.stepIn.2 = .halted
      · rw [runFrom_of_halted stuck, Machine.moves_of_halted stuck]
        rfl
      · rw [runFrom_of_moving stuck, ih, Machine.moves_succ stuck]
        change taken + 1 + Machine.moves limit s.machine.forward = _
        omega

theorem run_outcome (s : Session) (n : Nat) :
    (s.run n).2.1 = ⟨Machine.moves n s.machine, (Machine.forward^[n] s.machine).isHalted⟩ := by
  have steps := runFrom_steps 0 .empty n s
  have last := runFrom_fst 0 .empty n s
  unfold run
  rw [Nat.zero_add] at steps
  simp only [steps, last]

theorem reply_run (s : Session) (n : Nat) :
    (s.perform (.run n)).2.1 =
      .finished ⟨Machine.moves n s.machine, (Machine.forward^[n] s.machine).isHalted⟩ := by
  rw [← run_outcome]
  rfl

theorem performAll_stepIn (s : Session) (n : Nat) :
    s.performAll (List.replicate n .stepIn) = s.withMachine (Machine.forward^[n] s.machine) := by
  induction n generalizing s with
  | zero => rfl
  | succ n ih =>
      rw [List.replicate_succ, performAll, perform_stepIn, ih, Function.iterate_succ_apply]

theorem reply_stepIn_after (s : Session) (i : Nat) :
    ((s.performAll (List.replicate i .stepIn)).perform .stepIn).2.1 =
      .stepped (Machine.forward^[i] s.machine).stepIn.2 := by
  rw [performAll_stepIn, reply_stepIn]

theorem run_add (s : Session) (m n : Nat) :
    ((s.perform (.run m)).1.perform (.run n)).1 = (s.perform (.run (m + n))).1 := by
  simp only [perform_run, Machine.run_fst]
  rw [← Function.iterate_add_apply, Nat.add_comm]

/-- **Halting and runs.** A session is halted exactly if its next step forward says so, never inside
its trace, and then a step forward does nothing at all. A run takes single steps forward up to its
limit or the first that does not move. It reports a halt exactly if the counter it ends at names no
statement, and always if it stops before its limit. Two runs do what one run does with both limits
together. -/
theorem halting_and_runs {s : Session} (reachable : s.Reachable) :
    let after (i : Nat) := s.performAll (List.replicate i .stepIn)
    (s.machine.isHalted = true ↔ (s.perform .stepIn).2.1 = .stepped .halted) ∧
    (s.machine.cursor < s.machine.history.length → s.machine.isHalted = false) ∧
    (s.machine.isHalted = true → s.perform .stepIn = (s, .stepped .halted, .empty)) ∧
    (∀ n, ∃ k halted,
      (s.perform (.run n)).2.1 = .finished ⟨k, halted⟩ ∧ (s.perform (.run n)).1 = after k ∧
      (∀ i < k, ((after i).perform .stepIn).2.1 ≠ .stepped .halted) ∧
      (k = n ∨ k < n ∧ ((after k).perform .stepIn).2.1 = .stepped .halted) ∧
      (halted = true ↔
        ¬ ∃ i < (after k).machine.program.size, (after k).machine.counter.toInt = (i : Int)) ∧
      (k < n → halted = true)) ∧
    (∀ m n, ∃ i j halted halted',
      (s.perform (.run m)).2.1 = .finished ⟨i, halted⟩ ∧
      ((s.perform (.run m)).1.perform (.run n)).2.1 = .finished ⟨j, halted'⟩ ∧
      (s.perform (.run (m + n))).2.1 = .finished ⟨i + j, halted'⟩ ∧
      ((s.perform (.run m)).1.perform (.run n)).1 = (s.perform (.run (m + n))).1) := by
  intro after
  obtain ⟨input, traces⟩ := reachable.traces
  have halts : s.machine.isHalted = true ↔ s.machine.stepIn.2 = .halted := traces.isHalted_iff
  refine ⟨?_, fun inside => ?_, fun halted => ?_, fun n => ?_, fun m n => ?_⟩
  · rw [halts, reply_stepIn, Reply.stepped.injEq]
  · obtain ⟨r, replayed⟩ := (Machine.replayed_iff s.machine).2 inside
    rw [← Bool.not_eq_true, halts, replayed]
    simp
  · unfold perform
    rw [stepIn_of_halted (halts.1 halted)]
  · refine ⟨Machine.moves n s.machine, _, reply_run s n, ?_, fun i hi => ?_, ?_, ?_, fun short => ?_⟩
    · rw [perform_run, Machine.run_fst, ← Machine.iterate_moves]
      exact (performAll_stepIn s _).symm
    · rw [reply_stepIn_after, ne_eq, Reply.stepped.injEq]
      exact Machine.moving_of_lt_moves hi
    · obtain short | all := Nat.lt_or_eq_of_le (Machine.moves_le n s.machine)
      · refine .inr ⟨short, ?_⟩
        rw [reply_stepIn_after, Machine.halted_of_moves_lt short]
      · exact .inl all
    · rw [show after _ = _ from performAll_stepIn s _, Machine.iterate_moves, ← Program.get?_eq_none_iff]
      exact Option.isNone_iff_eq_none
    · rw [← Machine.iterate_moves, (traces.iterate_forward _).isHalted_iff]
      exact Machine.halted_of_moves_lt short
  · refine ⟨_, _, _, _, reply_run s m, reply_run _ n, ?_, run_add s m n⟩
    rw [reply_run, perform_run, Machine.run_fst, Machine.moves_add, ← Function.iterate_add_apply,
      Nat.add_comm n m]

/-- One step of the trace lies ahead and one statement beyond it, so a run replays, executes, halts. -/
theorem halting_and_runs_acrossFrontier :
    let s := (ofMachine (.boot ⟨6, ⟨2, 4⟩, ⟨4, 6⟩⟩)).performAll
      [.load ⟨#[⟨.setC, 0, 1, 0⟩, ⟨.set, 4, 2, 0⟩, ⟨.jmpC, 7, 0, 0⟩]⟩, .run 2, .stepBack]
    s.Reachable ∧ s.machine.cursor < s.machine.history.length ∧ s.machine.isHalted = false ∧
      (s.perform (.run 6)).2.1 = .finished ⟨2, true⟩ ∧
      ((s.perform (.run 1)).1.perform (.run 5)).1 = (s.perform (.run 6)).1 := by
  intro s
  have reachable : s.Reachable := ⟨⟨6, ⟨2, 4⟩, ⟨4, 6⟩⟩, _, _, rfl, rfl⟩
  have inside : s.machine.cursor < s.machine.history.length := by decide +kernel
  obtain ⟨-, running, -, -, additive⟩ := halting_and_runs reachable
  obtain ⟨-, -, -, -, -, -, -, same⟩ := additive 1 5
  exact ⟨reachable, inside, running inside, by decide +kernel, same⟩

end Session

end Retrace
