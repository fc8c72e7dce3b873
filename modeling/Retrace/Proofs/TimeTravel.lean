import Retrace.Proofs.Operations

/-!
# Time travel

A stepping machine goes forward, back and forward again along its trace, and only ever computes a
step once. All the same it always stands where the plain interpreter stands after as many steps.

* `Machine.Traces` : the machine and its whole trace agree with the interpreter started on a given
  input; kept by every operation (`Traces.forward`, `Traces.back`, `Traces.load`, ...);
* `Session.Inputs` : the input last given and the input the present trace started from;
* `Session.reached_eq_interpreter` : every session that operations lead to agrees with the
  interpreter.
-/

namespace Retrace

/-- The interpreter at the start of a program, in the memory a layout gives with this input. -/
def Layout.interpreter (l : Layout) (input : List Word) : Interpreter :=
  ⟨l.initial input, 0⟩

namespace Machine

/-- The machine stands where the interpreter stands after as many steps as lie behind the machine,
and the whole trace is what the interpreter's steps would have left. -/
structure Traces (input : List Word) (m : Machine) : Prop where
  state : Interpreter.steps m.program m.cursor (m.layout.interpreter input) =
    some ⟨m.memory, m.counter⟩
  trace : ∀ i, ∀ r, m.history[i]? = some r →
    ∃ x, Interpreter.steps m.program i (m.layout.interpreter input) = some x ∧
      x.record? m.program = some r

/-- The next recorded step stands in the trace at the cursor. -/
theorem getElem?_history_future {m : Machine} {r : Record} {rest : List Record} (h : m.future = r :: rest) :
    m.history[m.cursor]? = some r := by
  rw [history, h, cursor, List.getElem?_append_right (by simp)]
  simp

theorem getElem?_history_past {m : Machine} {r : Record} {rest : List Record} (h : m.past = r :: rest) :
    m.history[rest.length]? = some r := by
  rw [history, h, List.reverse_cons, List.append_assoc, List.getElem?_append_right (by simp)]
  simp

namespace Traces

variable {input : List Word} {m : Machine}

theorem size_memory (h : Traces input m) : m.memory.size = m.layout.size.toNat := by
  rw [Interpreter.size_steps h.state]
  exact Layout.size_initial m.layout input

/-- A recorded step taken again leads where the interpreter's next step leads. -/
theorem replay {r : Record} {rest : List Record} (h : Traces input m) (hf : m.future = r :: rest) :
    Traces input { m with
      memory := m.memory.redo r.commit, counter := r.after, past := r :: m.past, future := rest } := by
  obtain ⟨x, hx, hr⟩ := h.trace m.cursor r (getElem?_history_future hf)
  rw [h.state] at hx
  cases hx
  obtain ⟨-, y, hy, counter, memory, -⟩ := Interpreter.step_of_record? hr
  constructor
  · change Interpreter.steps m.program (m.cursor + 1) (m.layout.interpreter input) = _
    rw [Interpreter.steps_succ h.state, hy, ← counter, memory]
  · intro i r' hi
    refine h.trace i r' ?_
    simpa [history, hf] using hi

/-- A new step is the interpreter's next step. -/
theorem execute {s : Statement} (h : Traces input m) (hf : m.future = [])
    (hs : m.program.get? m.counter = some s) :
    Traces input { m with
      memory := (Record.ofStatement m.memory m.counter s).1
      counter := (Record.ofStatement m.memory m.counter s).2.after
      past := (Record.ofStatement m.memory m.counter s).2 :: m.past } := by
  constructor
  · change Interpreter.steps m.program (m.cursor + 1) (m.layout.interpreter input) = _
    rw [Interpreter.steps_succ h.state]
    exact Interpreter.step_eq hs
  · intro i r hi
    simp only [history, hf, List.append_nil, List.reverse_cons] at hi
    -- an old record is accounted for already; the new one stands at the cursor
    by_cases hlt : i < m.past.reverse.length
    · rw [List.getElem?_append_left hlt] at hi
      refine h.trace i r ?_
      rw [history, List.getElem?_append_left hlt, hi]
    · have here : i = m.cursor := by
        have := (List.getElem?_eq_some_iff.1 hi).1
        simp only [List.length_append, List.length_reverse, List.length_singleton] at this hlt
        unfold cursor
        omega
      subst here
      rw [List.getElem?_append_right (by simp [cursor])] at hi
      simp only [cursor, List.length_reverse, Nat.sub_self, List.getElem?_cons_zero] at hi
      refine ⟨_, h.state, ?_⟩
      rw [Interpreter.record?, hs]
      exact hi

theorem forward (h : Traces input m) : Traces input m.forward := by
  unfold Machine.forward
  cases hf : m.future with
  | cons r rest =>
      rw [stepIn_of_future hf]
      exact h.replay hf
  | nil =>
      cases hs : m.program.get? m.counter with
      | some s =>
          rw [stepIn_of_statement hf hs]
          exact h.execute hf hs
      | none =>
          rw [stepIn_of_end hf hs]
          exact h

theorem back (h : Traces input m) : Traces input m.back := by
  unfold Machine.back
  cases hp : m.past with
  | nil =>
      rw [stepBack_of_start hp]
      exact h
  | cons r rest =>
      rw [stepBack_of_past hp]
      obtain ⟨x, hx, hr⟩ := h.trace rest.length r (getElem?_history_past hp)
      obtain ⟨before, y, hy, -, -, undone⟩ := Interpreter.step_of_record? hr
      -- the interpreter was at `x` one step ago, so its present state is the machine's
      have state := h.state
      rw [cursor, hp, List.length_cons, Interpreter.steps_succ hx, hy] at state
      cases state
      constructor
      · change Interpreter.steps m.program rest.length (m.layout.interpreter input) = _
        rw [hx, before]
        exact congrArg some (congrArg (Interpreter.mk · x.counter) undone.symm)
      · intro i r' hi
        refine h.trace i r' ?_
        simpa [history, hp] using hi

theorem iterate_forward (h : Traces input m) (n : Nat) : Traces input (Machine.forward^[n] m) :=
  Function.Iterate.rec (Traces input) h (fun _ => forward) n

theorem iterate_back (h : Traces input m) (n : Nat) : Traces input (Machine.back^[n] m) :=
  Function.Iterate.rec (Traces input) h (fun _ => back) n

theorem boot (l : Layout) : Traces [] (Machine.boot l) := by
  constructor
  · change some (l.interpreter []) = some ⟨.zeros l.size.toNat, 0⟩
    rw [Layout.interpreter, Layout.initial_nil]
  · intro i r hi
    exact absurd hi (by simp [Machine.boot, history])

/-- A reset starts a new trace from the pending input. -/
theorem reset (h : m.memory.size = m.layout.size.toNat) : Traces m.input m.reset := by
  rw [reset_eq h]
  constructor
  · rfl
  · intro i r hi
    exact absurd hi (by simp [history])

/-- While nothing is recorded the interpreter has not moved, so new input is a new start. -/
theorem feed_fresh (h : Traces input m) (fresh : m.history = []) (values : List Word) :
    Traces values (m.feed values) := by
  have hp : m.past = [] := by simpa [history] using (List.append_eq_nil_iff.1 fresh).1
  have state := h.state
  rw [cursor, hp] at state
  change some (⟨m.layout.initial input, 0⟩ : Interpreter) = some ⟨m.memory, m.counter⟩ at state
  simp only [Option.some.injEq, Interpreter.mk.injEq] at state
  unfold feed
  rw [if_pos ((isFresh_iff m).2 fresh)]
  constructor
  · change Interpreter.steps m.program m.past.length _ = some ⟨inputLoaded { m with input := values }, m.counter⟩
    rw [hp, inputLoaded, ← state.1, ← state.2]
    -- the memory still holds the old input, which the new one covers
    change _ = some (⟨(m.layout.initial input).load _ (fit _ values), 0⟩ : Interpreter)
    rw [Layout.load_initial]
    rfl
  · intro i r hi
    change m.history[i]? = some r at hi
    rw [fresh] at hi
    exact absurd hi (by simp)

/-- Input given to a machine with a trace changes nothing yet. -/
theorem feed_recorded (h : Traces input m) (recorded : m.history ≠ []) (values : List Word) :
    Traces input (m.feed values) := by
  unfold feed
  rw [if_neg (fun fresh => recorded ((isFresh_iff m).1 fresh))]
  exact ⟨h.state, h.trace⟩

end Traces

/-! ## What motion leaves alone -/

/-- The same layout, program and pending input. -/
structure Kept (m m' : Machine) : Prop where
  layout : m'.layout = m.layout
  program : m'.program = m.program
  input : m'.input = m.input

theorem Kept.refl (m : Machine) : Kept m m := ⟨rfl, rfl, rfl⟩

theorem Kept.symm {m m' : Machine} (h : Kept m m') : Kept m' m :=
  ⟨h.layout.symm, h.program.symm, h.input.symm⟩

theorem Kept.trans {m₁ m₂ m₃ : Machine} (h : Kept m₁ m₂) (h' : Kept m₂ m₃) : Kept m₁ m₃ :=
  ⟨h'.layout.trans h.layout, h'.program.trans h.program, h'.input.trans h.input⟩

theorem kept_forward (m : Machine) : Kept m m.forward := by
  unfold forward
  cases hf : m.future with
  | cons r rest => rw [stepIn_of_future hf]; exact ⟨rfl, rfl, rfl⟩
  | nil =>
      cases hs : m.program.get? m.counter with
      | some s => rw [stepIn_of_statement hf hs]; exact ⟨rfl, rfl, rfl⟩
      | none => rw [stepIn_of_end hf hs]; exact .refl m

theorem kept_back (m : Machine) : Kept m m.back := by
  unfold back
  cases hp : m.past with
  | cons r rest => rw [stepBack_of_past hp]; exact ⟨rfl, rfl, rfl⟩
  | nil => rw [stepBack_of_start hp]; exact .refl m

theorem Kept.iterate {m m' : Machine} {f : Machine → Machine} (hf : ∀ m, Kept m (f m)) (h : Kept m m')
    (n : Nat) : Kept m (f^[n] m') :=
  Function.Iterate.rec (Kept m) h (fun m' h => h.trans (hf m')) n

end Machine

/-! ## Sessions -/

namespace Session

/-- What a session was given. -/
structure Inputs where
  /-- The input last given. -/
  pending : List Word
  /-- The input the present trace started from. -/
  effective : List Word

/-- Input counts at once while nothing is recorded, and else from the next reset on. -/
def Inputs.next (g : Inputs) (s : Session) : Operation → Inputs
  | .feed values => ⟨values, if s.machine.history.isEmpty then values else g.effective⟩
  | .load _ => ⟨g.pending, g.pending⟩
  | .clear => ⟨g.pending, g.pending⟩
  | _ => g

/-- The inputs after operations on a session that was given `g` before. -/
def inputsAfter (s : Session) (g : Inputs) : List Operation → Inputs
  | [] => g
  | op :: rest => (s.perform op).1.inputsAfter (g.next s op) rest

/-- The machine agrees with the interpreter on the inputs given. -/
structure Follows (layout : Layout) (g : Inputs) (s : Session) : Prop where
  layout : s.machine.layout = layout
  pending : s.machine.input = g.pending
  traces : s.machine.Traces g.effective

theorem Follows.of_kept {l : Layout} {g : Inputs} {s : Session} {m : Machine} (h : Follows l g s)
    (kept : s.machine.Kept m) (traces : m.Traces g.effective) : Follows l g (s.withMachine m) :=
  ⟨kept.layout.trans h.layout, kept.input.trans h.pending, traces⟩

theorem Follows.feed {l : Layout} {g : Inputs} {s : Session} (h : Follows l g s) (values : List Word) :
    Follows l (g.next s (.feed values)) (s.perform (.feed values)).1 := by
  have machine := s.machine_perform (.feed values)
  have kept : (s.machine.feed values).layout = s.machine.layout ∧
      (s.machine.feed values).input = values := by
    unfold Machine.feed
    split <;> exact ⟨rfl, rfl⟩
  refine ⟨?_, ?_, ?_⟩
  · rw [machine]
    exact kept.1.trans h.layout
  · rw [machine]
    exact kept.2
  · rw [machine]
    by_cases fresh : s.machine.history = []
    · simp only [Inputs.next, fresh, List.isEmpty_nil, if_true]
      exact h.traces.feed_fresh fresh values
    · simp only [Inputs.next, List.isEmpty_iff, fresh, if_false]
      exact h.traces.feed_recorded fresh values

theorem Follows.reset {l : Layout} {g : Inputs} {s s' : Session} (h : Follows l g s) (p : Program)
    (machine : s'.machine = { s.machine with program := p }.reset) :
    Follows l ⟨g.pending, g.pending⟩ s' := by
  have size : { s.machine with program := p }.memory.size = s.machine.layout.size.toNat :=
    h.traces.size_memory
  refine ⟨?_, ?_, ?_⟩
  · rw [machine]
    exact h.layout
  · rw [machine]
    exact h.pending
  · rw [machine, ← h.pending]
    exact Machine.Traces.reset size

theorem Follows.perform {l : Layout} {g : Inputs} {s : Session} (h : Follows l g s) (op : Operation) :
    Follows l (g.next s op) (s.perform op).1 := by
  cases op with
  | load p => exact h.reset p rfl
  | clear => exact h.reset s.machine.program rfl
  | feed values => exact h.feed values
  | stepIn =>
      rw [perform_stepIn]
      exact h.of_kept (Machine.kept_forward _) h.traces.forward
  | stepBack =>
      rw [perform_stepBack]
      exact h.of_kept (Machine.kept_back _) h.traces.back
  | run limit =>
      rw [perform_run, Machine.run_fst]
      exact h.of_kept (.iterate Machine.kept_forward (.refl _) limit) (h.traces.iterate_forward limit)
  | rewind =>
      rw [perform_rewind, Machine.rewind_fst]
      exact h.of_kept (.iterate Machine.kept_back (.refl _) _) (h.traces.iterate_back _)
  | subscribe => exact ⟨h.layout, h.pending, h.traces⟩
  | unsubscribe id => exact ⟨h.layout, h.pending, h.traces⟩

theorem Follows.performAll {l : Layout} {g : Inputs} {s : Session} (h : Follows l g s)
    (ops : List Operation) : Follows l (s.inputsAfter g ops) (s.performAll ops) := by
  induction ops generalizing g s with
  | nil => exact h
  | cons op rest ih => exact ih (h.perform op)

theorem follows_create {l : Layout} {m : Machine} (created : Machine.create l = .ok m) :
    Follows l ⟨[], []⟩ (ofMachine m) := by
  cases Machine.create_eq_ok created
  exact ⟨rfl, rfl, .boot l⟩

/-- **Time travel.** Whatever operations led to a session, its machine stands where the plain
interpreter stands after as many steps as lie behind the machine, started on the input that was
effective when the trace began. Every recorded step, also one that was taken back, is the record of
the interpreter's step of that number, and its writes lead from the memory before that step to the
memory after it and back. -/
theorem reached_eq_interpreter {layout : Layout} {new : Machine} (created : Machine.create layout = .ok new)
    (ops : List Operation) :
    let m := ((ofMachine new).performAll ops).machine
    let start := layout.interpreter ((ofMachine new).inputsAfter ⟨[], []⟩ ops).effective
    m.cursor ≤ m.history.length ∧
      Interpreter.steps m.program m.cursor start = some ⟨m.memory, m.counter⟩ ∧
      ∀ i < m.history.length, ∃ x y r,
        Interpreter.steps m.program i start = some x ∧
        Interpreter.steps m.program (i + 1) start = some y ∧
        m.history[i]? = some r ∧ x.record? m.program = some r ∧
        x.memory.redo r.commit = y.memory ∧ y.memory.undo r.commit = x.memory := by
  intro m start
  have follows := (follows_create created).performAll ops
  have traces := follows.traces
  have hl : m.layout = layout := follows.layout
  have state := traces.state
  rw [show ((ofMachine new).performAll ops).machine.layout = layout from hl] at state
  refine ⟨m.cursor_le_length, state, fun i hi => ?_⟩
  obtain ⟨x, hx, hr⟩ := traces.trace i _ (List.getElem?_eq_getElem hi)
  rw [show ((ofMachine new).performAll ops).machine.layout = layout from hl] at hx
  obtain ⟨-, y, hy, -, redone, undone⟩ := Interpreter.step_of_record? hr
  exact ⟨x, y, _, hx, (Interpreter.steps_succ hx).trans hy, List.getElem?_eq_getElem hi, hr, redone, undone⟩

/-- Input that is too long is cut off, input given over a trace stays out of it, and two steps after
four taken back the machine stands where two plain steps lead. -/
theorem reached_eq_interpreter_deferred :
    Machine.create ⟨6, ⟨2, 4⟩, ⟨4, 6⟩⟩ = .ok (.boot ⟨6, ⟨2, 4⟩, ⟨4, 6⟩⟩) ∧
      let m := ((ofMachine (.boot ⟨6, ⟨2, 4⟩, ⟨4, 6⟩⟩)).performAll
        [.feed [7, 5, 9], .load ⟨#[⟨.set, 4, 2, 0⟩, ⟨.write, 3, 2, 0⟩, ⟨.jmpC, 0, 0, 0⟩]⟩, .run 4,
          .feed [1], .rewind, .stepIn, .stepIn]).machine
      m.cursor = 2 ∧ m.history.length = 4 ∧ m.memory = ⟨#[0, 0, 7, 5, 7, 7]⟩ ∧
        Interpreter.steps m.program 2 ⟨⟨#[0, 0, 7, 5, 0, 0]⟩, 0⟩ = some ⟨m.memory, m.counter⟩ := by
  have created : Machine.create ⟨6, ⟨2, 4⟩, ⟨4, 6⟩⟩ = .ok (.boot ⟨6, ⟨2, 4⟩, ⟨4, 6⟩⟩) := rfl
  refine ⟨created, by decide +kernel, by decide +kernel, by decide +kernel, ?_⟩
  exact (reached_eq_interpreter created
    [.feed [7, 5, 9], .load ⟨#[⟨.set, 4, 2, 0⟩, ⟨.write, 3, 2, 0⟩, ⟨.jmpC, 0, 0, 0⟩]⟩, .run 4,
      .feed [1], .rewind, .stepIn, .stepIn]).2.1

end Session

end Retrace
