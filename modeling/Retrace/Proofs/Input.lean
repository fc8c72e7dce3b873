import Retrace.Proofs.Navigation

/-!
# Input and reset

Input given over a trace waits for the next reset, and a reset forgets everything but layout,
program and the input that waits.

* `Session.Operation.resets`, `Session.lastInput` : which operations reset, and the input that was
  given last;
* `Session.withInput` : the same session with other pending input; `Session.perform_withInput` : while
  there is a trace, no operation but a reset tells the two apart;
* `Session.deferred_input_invisible` : so deferred input shows after the next reset only;
* `Machine.started` : a machine at the start of a program; resetting and feeding lead there in either
  order (`Machine.feed_load`, `Machine.load_feed`);
* `Machine.Pristine` : what such a machine looks like, cell by cell;
* `Session.reset_forgets` : where resetting and feeding lead does not depend on what went before.
-/

namespace Retrace

namespace Session

namespace Operation

/-- The operation discards the trace. -/
def resets : Operation → Bool
  | load _ => true
  | clear => true
  | _ => false

/-- The input an operation gives. -/
def input? : Operation → Option (List Word)
  | feed values => some values
  | _ => none

end Operation

/-- The input that operations give last, or `given` if they give none. -/
def lastInput (given : List Word) (ops : List Operation) : List Word :=
  (ops.filterMap Operation.input?).getLast?.getD given

theorem lastInput_cons (given : List Word) (op : Operation) (rest : List Operation) :
    lastInput given (op :: rest) = lastInput (op.input?.getD given) rest := by
  unfold lastInput
  cases h : op.input? with
  | none => rw [List.filterMap_cons_none h]; rfl
  | some values => rw [List.filterMap_cons_some h, List.getLast?_cons]; rfl

end Session

/-! ## Deferred input -/

namespace Machine

/-- The machine with other pending input. -/
abbrev withInput (m : Machine) (values : List Word) : Machine := { m with input := values }

theorem stepIn_withInput (m : Machine) (values : List Word) :
    (m.withInput values).stepIn = (m.stepIn.1.withInput values, m.stepIn.2) := by
  cases hf : m.future with
  | cons r rest => rw [stepIn_of_future hf, stepIn_of_future (m := m.withInput values) hf]
  | nil =>
      cases hs : m.program.get? m.counter with
      | some s =>
          rw [stepIn_of_statement hf hs, stepIn_of_statement (m := m.withInput values) hf hs]
      | none => rw [stepIn_of_end hf hs, stepIn_of_end (m := m.withInput values) hf hs]

theorem stepBack_withInput (m : Machine) (values : List Word) :
    (m.withInput values).stepBack = m.stepBack.map (·.withInput values) := by
  cases hp : m.past with
  | cons r rest => rw [stepBack_of_past hp, stepBack_of_past (m := m.withInput values) hp]; rfl
  | nil => rw [stepBack_of_start hp, stepBack_of_start (m := m.withInput values) hp]; rfl

end Machine

namespace Session

/-- The session with other pending input. -/
abbrev withInput (s : Session) (values : List Word) : Session :=
  s.withMachine (s.machine.withInput values)

theorem stepIn_withInput (s : Session) (values : List Word) :
    (s.withInput values).stepIn = (s.stepIn.1.withInput values, s.stepIn.2) := by
  unfold stepIn
  rw [Machine.stepIn_withInput]
  cases h : s.machine.stepIn with
  | mk m step => cases step <;> rfl

theorem stepBack_withInput (s : Session) (values : List Word) :
    (s.withInput values).stepBack = s.stepBack.map fun x => (x.1.withInput values, x.2) := by
  unfold stepBack
  rw [Machine.stepBack_withInput]
  cases s.machine.stepBack <;> rfl

theorem runFrom_withInput (taken : Nat) (sent : Emission) (limit : Nat) (s : Session) (values : List Word) :
    runFrom taken sent limit (s.withInput values) =
      ((runFrom taken sent limit s).1.withInput values, (runFrom taken sent limit s).2) := by
  induction limit generalizing taken sent s with
  | zero => rfl
  | succ limit ih =>
      unfold runFrom
      rw [stepIn_withInput]
      cases h : s.stepIn with
      | mk s' answer =>
          obtain ⟨step, out⟩ := answer
          cases step with
          | halted => rfl
          | replayed r => exact ih _ _ s'
          | executed r => exact ih _ _ s'

theorem retreat_withInput (sent : Emission) (limit : Nat) (s : Session) (values : List Word) :
    retreat sent limit (s.withInput values) =
      ((retreat sent limit s).1.withInput values, (retreat sent limit s).2) := by
  induction limit generalizing sent s with
  | zero => rfl
  | succ limit ih =>
      unfold retreat
      rw [stepBack_withInput]
      cases h : s.stepBack with
      | none => rfl
      | some x => exact ih _ x.1

/-- Input that is deferred is logged and announced to nobody. -/
theorem perform_feed_of_recorded {s : Session} (recorded : s.machine.history ≠ []) (values : List Word) :
    s.perform (.feed values) = (s.withInput values, .done, ⟨#[], #[.inputDeferred values.length]⟩) := by
  have waits : ¬ s.machine.isFresh = true := fun fresh => recorded ((Machine.isFresh_iff _).1 fresh)
  rw [perform, feed, if_neg waits, Machine.feed_of_recorded recorded]

/-- While there is a trace, pending input makes no difference to any operation but a reset. -/
theorem perform_withInput {s : Session} (recorded : s.machine.history ≠ []) {op : Operation}
    (calm : op.resets = false) (values : List Word) :
    (s.withInput values).perform op =
      ((s.perform op).1.withInput (op.input?.getD values), (s.perform op).2) := by
  cases op with
  | load p => exact absurd calm (by simp [Operation.resets])
  | clear => exact absurd calm (by simp [Operation.resets])
  | feed new =>
      rw [perform_feed_of_recorded recorded, perform_feed_of_recorded (s := s.withInput values) recorded]
      rfl
  | stepIn =>
      simp only [perform, stepIn_withInput]
      rfl
  | stepBack =>
      simp only [perform, stepBack_withInput]
      cases s.stepBack <;> rfl
  | run limit =>
      simp only [perform, run, runFrom_withInput]
      rfl
  | rewind =>
      have same := retreat_withInput .empty s.machine.cursor s values
      simp only [perform, rewind]
      rw [show (s.withInput values).machine.cursor = s.machine.cursor from rfl, same]
      rfl
  | subscribe => rfl
  | unsubscribe id => rfl

/-- No operation but a reset shortens the trace. -/
theorem history_perform (s : Session) {op : Operation} (calm : op.resets = false) :
    s.machine.history <+: (s.perform op).1.machine.history := by
  cases op with
  | load p => exact absurd calm (by simp [Operation.resets])
  | clear => exact absurd calm (by simp [Operation.resets])
  | feed values =>
      rw [machine_perform, Machine.perform, Machine.feed]
      split <;> exact List.prefix_refl _
  | stepIn => exact (s.climbs_perform .stepIn).grows
  | stepBack => exact (s.climbs_perform .stepBack).grows
  | run limit => exact (s.climbs_perform (.run limit)).grows
  | rewind => exact (s.climbs_perform .rewind).grows
  | subscribe => exact List.prefix_refl _
  | unsubscribe id => exact List.prefix_refl _

theorem recorded_perform {s : Session} (recorded : s.machine.history ≠ []) {op : Operation}
    (calm : op.resets = false) : (s.perform op).1.machine.history ≠ [] := by
  intro empty
  have grows := s.history_perform calm
  rw [empty, List.prefix_nil] at grows
  exact recorded grows

theorem transcript_withInput {s : Session} (recorded : s.machine.history ≠ []) {ops : List Operation}
    (calm : ∀ op ∈ ops, op.resets = false) (values : List Word) :
    (s.withInput values).transcript ops = s.transcript ops := by
  induction ops generalizing s values with
  | nil => rfl
  | cons op rest ih =>
      obtain ⟨first, later⟩ := List.forall_mem_cons.1 calm
      rw [transcript_cons, transcript_cons, perform_withInput recorded first,
        ih (recorded_perform recorded first) later]
      rfl

theorem performAll_withInput {s : Session} (recorded : s.machine.history ≠ []) {ops : List Operation}
    (calm : ∀ op ∈ ops, op.resets = false) (values : List Word) :
    (s.withInput values).performAll ops = (s.performAll ops).withInput (lastInput values ops) := by
  induction ops generalizing s values with
  | nil => rfl
  | cons op rest ih =>
      obtain ⟨first, later⟩ := List.forall_mem_cons.1 calm
      rw [performAll, perform_withInput recorded first, lastInput_cons]
      exact ih (recorded_perform recorded first) later _

/-! ## Pending input and resets -/

theorem input_perform (s : Session) (op : Operation) :
    (s.perform op).1.machine.input = op.input?.getD s.machine.input := by
  rw [machine_perform]
  cases op with
  | load p => rfl
  | clear => rfl
  | feed values =>
      rw [Machine.perform, Machine.feed]
      split <;> rfl
  | stepIn => exact (Machine.kept_forward _).input
  | stepBack => exact (Machine.kept_back _).input
  | run limit =>
      rw [Machine.perform, Machine.run_fst]
      exact (Machine.Kept.iterate Machine.kept_forward (.refl _) limit).input
  | rewind =>
      rw [Machine.perform, Machine.rewind_fst]
      exact (Machine.Kept.iterate Machine.kept_back (.refl _) _).input
  | subscribe => rfl
  | unsubscribe id => rfl

theorem input_performAll (s : Session) (ops : List Operation) :
    (s.performAll ops).machine.input = lastInput s.machine.input ops := by
  induction ops generalizing s with
  | nil => rfl
  | cons op rest ih => rw [performAll, ih, input_perform, lastInput_cons]

theorem memory_reset {s : Session} (size : s.machine.memory.size = s.machine.layout.size.toNat)
    {op : Operation} (resets : op.resets = true) :
    (s.perform op).1.machine.memory = s.machine.layout.initial s.machine.input := by
  rw [machine_perform]
  cases op with
  | load p =>
      rw [Machine.perform, Machine.load, Machine.reset_eq (m := { s.machine with program := p }) size]
  | clear => rw [Machine.perform, Machine.clear, Machine.reset_eq size]
  | _ => exact absurd resets (by simp [Operation.resets])

/-- Whatever operations came before it, a reset loads the input they gave last. -/
theorem memory_performAll_reset {layout : Layout} {new : Machine} (created : Machine.create layout = .ok new)
    (ops : List Operation) {reset : Operation} (resets : reset.resets = true) :
    (((ofMachine new).performAll ops).perform reset).1.machine.memory = layout.initial (lastInput [] ops) := by
  have follows := (follows_create created).performAll ops
  have nothing : (ofMachine new).machine.input = [] := (follows_create created).pending
  rw [memory_reset follows.traces.size_memory resets, follows.layout, input_performAll, nothing]

/-- **Deferred input is invisible until the next reset.** Over a trace, giving input is announced to
nobody, and whatever operations follow, a reset apart, what a host sees of them is the same with it
and without it; the sessions differ in the pending input alone. The next reset loads the input that
was given last, and what was deferred before that is gone. -/
theorem deferred_input_invisible {layout : Layout} {new : Machine}
    (created : Machine.create layout = .ok new) (before : List Operation)
    (recorded : ((ofMachine new).performAll before).machine.history ≠ []) (values : List Word)
    (ops : List Operation) (calm : ∀ op ∈ ops, op.resets = false) :
    let s := (ofMachine new).performAll before
    let fed := (s.perform (.feed values)).1
    (fed.machine.view = s.machine.view ∧ fed.machine.output = s.machine.output ∧
      (s.perform (.feed values)).2.2.notices = #[]) ∧
    fed.transcript ops = s.transcript ops ∧
    fed.performAll ops = (s.performAll ops).withInput (lastInput values ops) ∧
    ∀ reset : Operation, reset.resets = true →
      ((fed.performAll ops).perform reset).1.machine.memory =
        layout.initial (lastInput [] (before ++ .feed values :: ops)) ∧
      ((s.performAll ops).perform reset).1.machine.memory =
        layout.initial (lastInput [] (before ++ ops)) := by
  intro s fed
  have silent := perform_feed_of_recorded recorded values
  have fed_eq : fed = s.withInput values := congrArg Prod.fst silent
  refine ⟨⟨?_, ?_, ?_⟩, ?_, ?_, fun reset resets => ⟨?_, ?_⟩⟩
  · rw [fed_eq]
    rfl
  · rw [fed_eq]
    rfl
  · rw [silent]
  · rw [fed_eq]
    exact transcript_withInput recorded calm values
  · rw [fed_eq]
    exact performAll_withInput recorded calm values
  · have run : fed.performAll ops = (ofMachine new).performAll (before ++ .feed values :: ops) := by
      rw [performAll_append]
      rfl
    rw [run]
    exact memory_performAll_reset created _ resets
  · rw [← performAll_append]
    exact memory_performAll_reset created _ resets

/-- The trace holds two steps and the machine stands at its start, where it looks fresh. Of the three
inputs given, the one that is in the memory stays there, and the last one is loaded by the reset. -/
theorem deferred_input_invisible_rewound :
    let layout : Layout := ⟨6, ⟨2, 4⟩, ⟨4, 6⟩⟩
    let before : List Operation :=
      [.load ⟨#[⟨.set, 4, 2, 0⟩, ⟨.jmpC, 0, 0, 0⟩]⟩, .feed [7], .run 2, .rewind]
    let ops : List Operation := [.stepIn, .feed [3, 4, 5], .run 3]
    let s := (ofMachine (.boot layout)).performAll before
    let fed := (s.perform (.feed [9])).1
    Machine.create layout = .ok (.boot layout) ∧ s.machine.history ≠ [] ∧ s.machine.cursor = 0 ∧
      (∀ op ∈ ops, op.resets = false) ∧
      fed.transcript ops = s.transcript ops ∧ (fed.performAll ops).machine.memory = ⟨#[0, 0, 7, 0, 7, 0]⟩ ∧
      ((fed.performAll ops).perform .clear).1.machine.memory = ⟨#[0, 0, 3, 4, 0, 0]⟩ := by
  intro layout before ops s fed
  have created : Machine.create layout = .ok (.boot layout) := rfl
  have recorded : s.machine.history ≠ [] := by decide +kernel
  have calm : ∀ op ∈ ops, op.resets = false := by decide +kernel
  obtain ⟨-, same, -, loaded⟩ := deferred_input_invisible created before recorded [9] ops calm
  exact ⟨created, recorded, by decide +kernel, calm, same, by decide +kernel,
    (loaded .clear rfl).1.trans (by decide +kernel)⟩

end Session

/-! ## Starting over -/

namespace Layout

theorem validateSpan_eq_ok_iff (size : Size) (region : Region) (span : Span) :
    validateSpan size region span = .ok () ↔
      span.start.toNat ≤ span.stop.toNat ∧ span.stop.toNat ≤ size.toNat := by
  unfold validateSpan
  simp only [UInt64.lt_iff_toNat_lt]
  split_ifs with inverted outside
  · exact ⟨fun h => absurd h (by simp), fun h => absurd inverted (by omega)⟩
  · exact ⟨fun h => absurd h (by simp), fun h => absurd outside (by omega)⟩
  · exact ⟨fun _ => by omega, fun _ => rfl⟩

/-- The layouts a machine accepts. -/
theorem validate_eq_ok_iff (l : Layout) :
    l.validate = .ok () ↔ l.size ≠ 0 ∧
      (l.input.start.toNat ≤ l.input.stop.toNat ∧ l.input.stop.toNat ≤ l.size.toNat) ∧
      l.output.start.toNat ≤ l.output.stop.toNat ∧ l.output.stop.toNat ≤ l.size.toNat := by
  rw [← validateSpan_eq_ok_iff l.size .input, ← validateSpan_eq_ok_iff l.size .output]
  unfold validate
  split_ifs with empty
  · exact ⟨fun h => absurd h (by simp), fun h => absurd empty h.1⟩
  · cases input : validateSpan l.size .input l.input with
    | error e => simp [bind, Except.bind]
    | ok u => simp [bind, Except.bind, empty]

/-- The input span of a layout that is accepted lies in the memory. -/
theorem input_le_size {l : Layout} (h : l.validate = .ok ()) : l.input.stop.toNat ≤ l.size.toNat :=
  ((validate_eq_ok_iff l).1 h).2.1.2

end Layout

namespace Machine

/-- The output of a machine whose output span fits its memory. -/
theorem output_of_fits {m : Machine} (forward : m.layout.output.start.toNat ≤ m.layout.output.stop.toNat)
    (inside : m.layout.output.stop.toNat ≤ m.memory.size) :
    m.output = (m.memory.cells.extract m.layout.output.start.toNat m.layout.output.stop.toNat).toList :=
  if_pos ⟨UInt64.le_iff_toNat_le.2 forward, inside⟩

/-- A machine at the start of a program, with input in its memory. -/
def started (l : Layout) (p : Program) (values : List Word) : Machine :=
  { layout := l
    memory := l.initial values
    program := p
    counter := 0
    past := []
    future := []
    input := values }

theorem traces_started (l : Layout) (p : Program) (values : List Word) :
    (started l p values).Traces values :=
  ⟨rfl, fun i r hi => absurd hi (by simp [started, history])⟩

theorem load_feed {m : Machine} (size : m.memory.size = m.layout.size.toNat) (p : Program)
    (values : List Word) : (m.load p).feed values = started m.layout p values := by
  rw [load, reset_eq (m := { m with program := p }) size]
  unfold feed inputLoaded
  simp only [isFresh, List.isEmpty_nil, Bool.and_self, if_true, Layout.load_initial]
  rfl

theorem feed_load {m : Machine} (size : m.memory.size = m.layout.size.toNat) (p : Program)
    (values : List Word) : (m.feed values).load p = started m.layout p values := by
  have kept : (m.feed values).memory.size = m.memory.size ∧ (m.feed values).layout = m.layout ∧
      (m.feed values).input = values := by
    unfold feed inputLoaded
    split
    · exact ⟨Memory.size_load _ _ _, rfl, rfl⟩
    · exact ⟨rfl, rfl, rfl⟩
  obtain ⟨sameSize, layout, input⟩ := kept
  rw [load, reset_eq (m := { m.feed values with program := p }) (by rw [sameSize, size, layout])]
  simp only [layout, input]
  rfl

theorem clear_eq_load (m : Machine) : m.clear = m.load m.program := rfl

/-- Nothing has happened yet on this layout, with this program and this input: the memory is zero but
for the values of the input that fit their span, in their places. -/
structure Pristine (l : Layout) (p : Program) (values : List Word) (m : Machine) : Prop where
  layout : m.layout = l
  program : m.program = p
  input : m.input = values
  history : m.history = []
  cursor : m.cursor = 0
  counter : m.counter = 0
  size : m.memory.size = l.size.toNat
  filled : ∀ i value, values[i]? = some value → i < l.input.length →
    m.memory.get? (l.input.start.toNat + i) = some value
  zero : ∀ j < l.size.toNat, (∀ i < values.length, i < l.input.length → j ≠ l.input.start.toNat + i) →
    m.memory.get? j = some 0

theorem pristine_started {l : Layout} (valid : l.validate = .ok ()) (p : Program) (values : List Word) :
    Pristine l p values (started l p values) := by
  have bound := Layout.input_le_size valid
  refine ⟨rfl, rfl, rfl, rfl, rfl, rfl, Layout.size_initial l values, ?_, ?_⟩
  · intro i value hi fits
    unfold Span.length at fits
    change (l.initial values).get? _ = _
    rw [Layout.get?_initial, if_pos (by omega), if_pos (by omega), Nat.add_sub_cancel_left,
      List.getD_eq_getElem?_getD, hi]
    rfl
  · intro j inside free
    change (l.initial values).get? j = some 0
    rw [Layout.get?_initial, if_pos inside]
    split
    · next span =>
      -- a cell of the span that no value reaches lies past the end of the input
      have short : values.length ≤ j - l.input.start.toNat := by
        by_contra reached
        refine free (j - l.input.start.toNat) (by omega) ?_ (by omega)
        unfold Span.length
        omega
      rw [List.getD_eq_getElem?_getD, List.getElem?_eq_none short]
      rfl
    · rfl

end Machine

namespace Session

theorem Reachable.validate {s : Session} (h : s.Reachable) : s.machine.layout.validate = .ok () := by
  obtain ⟨layout, m, ops, created, rfl⟩ := h
  rw [((follows_create created).performAll ops).layout]
  exact Machine.validate_of_create created

/-- **A reset forgets.** Loading a program and giving input, in either order, leads every session of
one layout to the same machine, whatever it did before: nothing recorded, counter zero, and a memory
that is zero but for the input in its span. So does clearing, for sessions of the same program. -/
theorem reset_forgets {s₁ s₂ : Session} (reachable₁ : s₁.Reachable) (reachable₂ : s₂.Reachable)
    (layout : s₁.machine.layout = s₂.machine.layout) (values : List Word) :
    (∀ p, ∃ m, m.Pristine s₁.machine.layout p values ∧
      ∀ s, s = s₁ ∨ s = s₂ → (s.performAll [.load p, .feed values]).machine = m ∧
        (s.performAll [.feed values, .load p]).machine = m) ∧
    (s₁.machine.program = s₂.machine.program →
      ∃ m, m.Pristine s₁.machine.layout s₁.machine.program values ∧
        ∀ s, s = s₁ ∨ s = s₂ → (s.performAll [.clear, .feed values]).machine = m ∧
          (s.performAll [.feed values, .clear]).machine = m) := by
  have valid := reachable₁.validate
  have start : ∀ s, s = s₁ ∨ s = s₂ → s.machine.memory.size = s.machine.layout.size.toNat ∧
      s.machine.layout = s₁.machine.layout := by
    rintro s (rfl | rfl)
    · obtain ⟨input, traces⟩ := reachable₁.traces
      exact ⟨traces.size_memory, rfl⟩
    · obtain ⟨input, traces⟩ := reachable₂.traces
      exact ⟨traces.size_memory, layout.symm⟩
  have machine (s : Session) (op op' : Operation) :
      (s.performAll [op, op']).machine = (s.machine.perform op).perform op' := by
    rw [performAll, performAll, performAll, machine_perform, machine_perform]
  refine ⟨fun p => ⟨_, Machine.pristine_started valid p values, fun s member => ?_⟩,
    fun program => ⟨_, Machine.pristine_started valid _ values, fun s member => ?_⟩⟩
  · obtain ⟨size, same⟩ := start s member
    rw [machine, machine, ← same]
    exact ⟨Machine.load_feed size p values, Machine.feed_load size p values⟩
  · obtain ⟨size, same⟩ := start s member
    have holds : s.machine.program = s₁.machine.program := by
      rcases member with rfl | rfl
      · rfl
      · exact program.symm
    have kept : (s.machine.feed values).program = s.machine.program := by
      unfold Machine.feed
      split <;> rfl
    rw [machine, machine, ← same, ← holds]
    refine ⟨Machine.load_feed size _ values, ?_⟩
    change (s.machine.feed values).clear = _
    rw [Machine.clear_eq_load, kept]
    exact Machine.feed_load size _ values

/-- A session in the middle of a trace over old input, and one that was never used. -/
theorem reset_forgets_usedAndNew :
    let used := (ofMachine (.boot ⟨6, ⟨2, 4⟩, ⟨4, 6⟩⟩)).performAll
      [.feed [7, 5], .load ⟨#[⟨.set, 4, 2, 0⟩, ⟨.jmpC, 0, 0, 0⟩]⟩, .run 3, .stepBack, .feed [8, 8]]
    let unused := ofMachine (.boot ⟨6, ⟨2, 4⟩, ⟨4, 6⟩⟩)
    let p : Program := ⟨#[⟨.setC, 0, 1, 0⟩]⟩
    used.Reachable ∧ unused.Reachable ∧ used.machine.layout = unused.machine.layout ∧
      (used.performAll [.load p, .feed [1]]).machine = (unused.performAll [.feed [1], .load p]).machine ∧
      (used.performAll [.load p, .feed [1]]).machine.memory = ⟨#[0, 0, 1, 0, 0, 0]⟩ := by
  intro used unused p
  have reachable : used.Reachable := ⟨⟨6, ⟨2, 4⟩, ⟨4, 6⟩⟩, _, _, rfl, rfl⟩
  have reachable' : unused.Reachable := ⟨⟨6, ⟨2, 4⟩, ⟨4, 6⟩⟩, _, [], rfl, rfl⟩
  have layout : used.machine.layout = unused.machine.layout := by decide +kernel
  obtain ⟨m, -, same⟩ := (reset_forgets reachable reachable' layout [1]).1 p
  exact ⟨reachable, reachable', layout, (same used (.inl rfl)).1.trans (same unused (.inr rfl)).2.symm,
    by decide +kernel⟩

end Session

end Retrace
