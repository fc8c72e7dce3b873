import Mathlib.Logic.Function.Conjugate
import Retrace.Proofs.Halting
import Retrace.Proofs.Listeners
import Retrace.Proofs.RoundTrip

/-!
# Slots that are not used

A statement has three slots, and its instruction may take fewer operands. Cleaning puts zero into the
other slots. It commutes with everything a session does, so nothing but the slots themselves shows
what was in them.

* `Effect.script_take`, `Statement.script_cleaned` : an effect looks at its operands only;
* `Record.cleaned`, `Machine.cleaned`, `Session.cleaned` : cleaning a whole session;
  `Session.perform_cleaned`, `Session.reply_cleaned` : it commutes with every operation;
* `Program.Resembles`, `Session.Operation.Resembles` : the same but for such slots;
* `Session.Indistinguishable` : sessions that a host cannot tell apart;
* `Session.spare_slots_unseen` : operations that resemble each other lead to such sessions.
-/

namespace Retrace

/-! ## Statements -/

/-- An effect looks at no slot past the operands it declares. -/
theorem Effect.script_take (e : Effect) (a b c : Word) :
    e.script (([a, b, c].take e.kinds.length).getD 0 0) (([a, b, c].take e.kinds.length).getD 1 0)
      (([a, b, c].take e.kinds.length).getD 2 0) = e.script a b c := by
  cases e with
  | binary op form => cases form <;> rfl
  | _ => rfl

theorem Statement.script_cleaned (s : Statement) : s.cleaned.script = s.script :=
  s.opcode.effect.script_take s.a s.b s.c

theorem Statement.text_cleaned (s : Statement) : s.cleaned.text = s.text := by
  unfold text
  rw [s.operands_cleaned]
  rfl

theorem Program.get?_cleaned (p : Program) (counter : Word) :
    p.cleaned.get? counter = (p.get? counter).map Statement.cleaned := by
  unfold get? cleaned
  cases counter.index? with
  | none => rfl
  | some i => exact Array.getElem?_map

/-! ## Machines -/

/-- The record with its statement cleaned. -/
def Record.cleaned (r : Record) : Record := { r with statement := r.statement.cleaned }

theorem Record.ofStatement_cleaned (m : Memory) (counter : Word) (s : Statement) :
    ofStatement m counter s.cleaned = ((ofStatement m counter s).1, (ofStatement m counter s).2.cleaned) := by
  unfold ofStatement
  rw [s.script_cleaned]
  rfl

def Step.cleaned : Step → Step
  | executed r => executed r.cleaned
  | replayed r => replayed r.cleaned
  | halted => halted

namespace Machine

/-- The machine with its program and its trace cleaned. -/
def cleaned (m : Machine) : Machine :=
  { m with
    program := m.program.cleaned
    past := m.past.map Record.cleaned
    future := m.future.map Record.cleaned }

@[simp] theorem history_cleaned (m : Machine) : m.cleaned.history = m.history.map Record.cleaned := by
  simp [history, cleaned]

@[simp] theorem cursor_cleaned (m : Machine) : m.cleaned.cursor = m.cursor := by
  simp [cursor, cleaned]

theorem isHalted_cleaned (m : Machine) : m.cleaned.isHalted = m.isHalted := by
  show (m.program.cleaned.get? m.counter).isNone = (m.program.get? m.counter).isNone
  rw [Program.get?_cleaned, Option.isNone_map]

theorem stepIn_cleaned (m : Machine) : m.cleaned.stepIn = (m.forward.cleaned, m.stepIn.2.cleaned) := by
  unfold forward
  cases hf : m.future with
  | cons r rest =>
      have hf' : m.cleaned.future = r.cleaned :: rest.map Record.cleaned := by
        show m.future.map _ = _
        rw [hf, List.map_cons]
      rw [stepIn_of_future hf, stepIn_of_future hf']
      rfl
  | nil =>
      have hf' : m.cleaned.future = [] := by
        show m.future.map _ = _
        rw [hf, List.map_nil]
      have hs' := m.program.get?_cleaned m.counter
      cases hs : m.program.get? m.counter with
      | some s =>
          rw [hs, Option.map_some] at hs'
          rw [stepIn_of_statement hf hs, stepIn_of_statement hf' hs']
          simp only [cleaned, Record.ofStatement_cleaned, List.map_cons]
          rfl
      | none =>
          rw [hs, Option.map_none] at hs'
          rw [stepIn_of_end hf hs, stepIn_of_end hf' hs']
          rfl

theorem stepBack_cleaned (m : Machine) : m.cleaned.stepBack = m.stepBack.map cleaned := by
  cases hp : m.past with
  | cons r rest =>
      have hp' : m.cleaned.past = r.cleaned :: rest.map Record.cleaned := by
        show m.past.map _ = _
        rw [hp, List.map_cons]
      rw [stepBack_of_past hp, stepBack_of_past hp']
      rfl
  | nil =>
      have hp' : m.cleaned.past = [] := by
        show m.past.map _ = _
        rw [hp, List.map_nil]
      rw [stepBack_of_start hp, stepBack_of_start hp']
      rfl

theorem semiconj_forward : Function.Semiconj cleaned forward forward := by
  intro m
  exact (congrArg Prod.fst m.stepIn_cleaned).symm

theorem semiconj_back : Function.Semiconj cleaned back back := by
  intro m
  rw [back, back, stepBack_cleaned]
  cases m.stepBack <;> rfl

theorem moves_cleaned (n : Nat) (m : Machine) : moves n m.cleaned = moves n m := by
  apply moves_eq_of_cursor m.cursor_cleaned
  rw [← semiconj_forward.iterate_right n m, cursor_cleaned]

end Machine

/-! ## Sessions -/

namespace Session

def Operation.cleaned : Operation → Operation
  | load p => load p.cleaned
  | op => op

def Reply.cleaned : Reply → Reply
  | stepped step => stepped step.cleaned
  | reply => reply

end Session

theorem Machine.perform_cleaned (m : Machine) (op : Session.Operation) :
    m.cleaned.perform op.cleaned = (m.perform op).cleaned := by
  cases op with
  | load p => rfl
  | clear => rfl
  | feed values =>
      have fresh : m.cleaned.isFresh = m.isFresh := by simp [isFresh, cleaned]
      show m.cleaned.feed values = (m.feed values).cleaned
      unfold feed
      rw [fresh]
      split <;> rfl
  | stepIn => exact (semiconj_forward m).symm
  | stepBack => exact (semiconj_back m).symm
  | run limit =>
      show (m.cleaned.run limit).1 = (m.run limit).1.cleaned
      rw [run_fst, run_fst]
      exact (semiconj_forward.iterate_right limit m).symm
  | rewind =>
      show m.cleaned.rewind.1 = m.rewind.1.cleaned
      rw [rewind_fst, rewind_fst, cursor_cleaned]
      exact (semiconj_back.iterate_right m.cursor m).symm
  | subscribe => rfl
  | unsubscribe id => rfl

namespace Session

/-- The session with its machine cleaned. -/
def cleaned (s : Session) : Session := s.withMachine s.machine.cleaned

theorem perform_cleaned (s : Session) (op : Operation) :
    (s.cleaned.perform op.cleaned).1 = (s.perform op).1.cleaned := by
  have machine := s.machine.perform_cleaned op
  obtain ⟨rfl, -⟩ | ⟨id, rfl, -⟩ | ⟨subscribe, unsubscribe, eq⟩ := s.perform_cases op
  · rfl
  · rfl
  · have subscribe' : op.cleaned ≠ .subscribe := by
      cases op <;> simp_all [Operation.cleaned]
    have unsubscribe' : ∀ id, op.cleaned ≠ .unsubscribe id := by
      cases op <;> simp_all [Operation.cleaned]
    obtain ⟨h, -⟩ | ⟨id, h, -⟩ | ⟨-, -, eq'⟩ := s.cleaned.perform_cases op.cleaned
    · exact absurd h subscribe'
    · exact absurd h (unsubscribe' id)
    · rw [eq, eq']
      show s.withMachine (s.machine.cleaned.perform op.cleaned) = _
      rw [machine]
      rfl

theorem reply_cleaned (s : Session) (op : Operation) :
    (s.cleaned.perform op.cleaned).2.1 = (s.perform op).2.1.cleaned := by
  cases op with
  | load p => rfl
  | clear => rfl
  | feed values => rfl
  | stepIn =>
      show (s.cleaned.perform .stepIn).2.1 = _
      rw [reply_stepIn, reply_stepIn]
      show Reply.stepped s.machine.cleaned.stepIn.2 = _
      rw [Machine.stepIn_cleaned]
      rfl
  | stepBack =>
      show (s.cleaned.perform .stepBack).2.1 = _
      rw [reply_stepBack, reply_stepBack]
      show Reply.moved s.machine.cleaned.stepBack.isSome = _
      rw [Machine.stepBack_cleaned, Option.isSome_map]
      rfl
  | run limit =>
      show (s.cleaned.perform (.run limit)).2.1 = _
      rw [reply_run, reply_run]
      show Reply.finished
        ⟨Machine.moves limit s.machine.cleaned, (Machine.forward^[limit] s.machine.cleaned).isHalted⟩ = _
      rw [Machine.moves_cleaned, ← Machine.semiconj_forward.iterate_right limit, Machine.isHalted_cleaned]
      rfl
  | rewind =>
      show Reply.rewound s.machine.cleaned.cursor = _
      rw [Machine.cursor_cleaned]
      rfl
  | subscribe => rfl
  | unsubscribe id => rfl

theorem performAll_cleaned (s : Session) (ops : List Operation) :
    s.cleaned.performAll (ops.map Operation.cleaned) = (s.performAll ops).cleaned := by
  induction ops generalizing s with
  | nil => rfl
  | cons op rest ih =>
      rw [List.map_cons, performAll, perform_cleaned, ih]
      rfl

end Session

/-! ## Resemblance -/

/-- As many statements, with the same instructions and the same operands one by one. -/
def Program.Resembles (p q : Program) : Prop :=
  p.size = q.size ∧ ∀ (i : Nat) (s t : Statement), p.statements[i]? = some s → q.statements[i]? = some t →
    s.opcode = t.opcode ∧ s.operands = t.operands

theorem Program.Resembles.cleaned {p q : Program} (h : p.Resembles q) : p.cleaned = q.cleaned := by
  unfold Program.cleaned
  congr 1
  apply Array.ext_getElem?
  intro i
  rw [Array.getElem?_map, Array.getElem?_map]
  have size : p.statements.size = q.statements.size := h.1
  by_cases inside : i < p.statements.size
  · have inside' : i < q.statements.size := by omega
    obtain ⟨opcode, operands⟩ :=
      h.2 i _ _ (Array.getElem?_eq_getElem inside) (Array.getElem?_eq_getElem inside')
    rw [Array.getElem?_eq_getElem inside, Array.getElem?_eq_getElem inside']
    simp only [Option.map_some, Statement.cleaned, opcode, operands]
  · rw [Array.getElem?_eq_none (by omega), Array.getElem?_eq_none (by omega)]

theorem Program.resembles_cleaned (p : Program) : p.Resembles p.cleaned := by
  refine ⟨by simp [size, Program.cleaned], fun i s t hs ht => ?_⟩
  rw [Program.cleaned, Array.getElem?_map, hs] at ht
  cases ht
  exact ⟨rfl, s.operands_cleaned.symm⟩

/-- The same record, as far as the text of its statement goes. -/
structure Record.Resembles (r r' : Record) : Prop where
  text : r.statement.text = r'.statement.text
  before : r.before = r'.before
  after : r.after = r'.after
  commit : r.commit = r'.commit
  footprint : r.footprint = r'.footprint

theorem Record.resembles_of_cleaned {r r' : Record} (h : r.cleaned = r'.cleaned) : r.Resembles r' := by
  obtain ⟨statement, before, after, commit, footprint⟩ := Record.mk.inj h
  refine ⟨?_, before, after, commit, footprint⟩
  rw [← r.statement.text_cleaned, statement, r'.statement.text_cleaned]

/-- The same kind of step, with records that resemble each other. -/
inductive Step.Resembles : Step → Step → Prop
  | executed {r r' : Record} : r.Resembles r' → Resembles (.executed r) (.executed r')
  | replayed {r r' : Record} : r.Resembles r' → Resembles (.replayed r) (.replayed r')
  | halted : Resembles .halted .halted

theorem Step.resembles_of_cleaned {step step' : Step} (h : step.cleaned = step'.cleaned) :
    step.Resembles step' := by
  cases step with
  | executed r =>
      cases step' with
      | executed r' => exact .executed (Record.resembles_of_cleaned (Step.executed.inj h))
      | _ => cases h
  | replayed r =>
      cases step' with
      | replayed r' => exact .replayed (Record.resembles_of_cleaned (Step.replayed.inj h))
      | _ => cases h
  | halted =>
      cases step' with
      | halted => exact .halted
      | _ => cases h

namespace Session

/-- The same operation, or one that loads a program and one that loads a resembling program. -/
inductive Operation.Resembles : Operation → Operation → Prop
  | load {p q : Program} : p.Resembles q → Resembles (.load p) (.load q)
  | same (op : Operation) : Resembles op op

theorem Operation.Resembles.cleaned {op op' : Operation} (h : op.Resembles op') : op.cleaned = op'.cleaned := by
  cases h with
  | load resembles => exact congrArg Operation.load resembles.cleaned
  | same => rfl

/-- The same reply, or steps that resemble each other. -/
inductive Reply.Resembles : Reply → Reply → Prop
  | stepped {step step' : Step} : step.Resembles step' → Resembles (.stepped step) (.stepped step')
  | same (reply : Reply) : Resembles reply reply

theorem Reply.resembles_of_cleaned {reply reply' : Reply} (h : reply.cleaned = reply'.cleaned) :
    reply.Resembles reply' := by
  cases reply with
  | stepped step =>
      cases reply' with
      | stepped step' => exact .stepped (Step.resembles_of_cleaned (Reply.stepped.inj h))
      | _ => cases h
  | _ =>
      cases reply' with
      | stepped step' => cases h
      | _ => cases h <;> exact .same _

/-- What a host can see of two sessions is the same, and so is what they answer next. -/
structure Indistinguishable (s s' : Session) : Prop where
  memory : s.machine.memory = s'.machine.memory
  counter : s.machine.counter = s'.machine.counter
  cursor : s.machine.cursor = s'.machine.cursor
  input : s.machine.input = s'.machine.input
  output : s.machine.output = s'.machine.output
  history : List.Forall₂ Record.Resembles s.machine.history s'.machine.history
  reply : ∀ op op', op.Resembles op' → (s.perform op).2.1.Resembles (s'.perform op').2.1

theorem indistinguishable_of_cleaned {s s' : Session} (h : s.cleaned = s'.cleaned) : Indistinguishable s s' := by
  have machine : s.machine.cleaned = s'.machine.cleaned := congrArg Session.machine h
  constructor
  · show s.machine.cleaned.memory = s'.machine.cleaned.memory
    rw [machine]
  · show s.machine.cleaned.counter = s'.machine.cleaned.counter
    rw [machine]
  · rw [← Machine.cursor_cleaned, machine, Machine.cursor_cleaned]
  · show s.machine.cleaned.input = s'.machine.cleaned.input
    rw [machine]
  · show s.machine.cleaned.output = s'.machine.cleaned.output
    rw [machine]
  · have history := congrArg Machine.history machine
    rw [Machine.history_cleaned, Machine.history_cleaned, ← List.forall₂_eq_eq_eq, List.forall₂_map_left_iff,
      List.forall₂_map_right_iff] at history
    exact history.imp fun _ _ => Record.resembles_of_cleaned
  · intro op op' resembles
    apply Reply.resembles_of_cleaned
    rw [← reply_cleaned, ← reply_cleaned, h, resembles.cleaned]

theorem performAll_resembles (s : Session) {ops ops' : List Operation}
    (h : List.Forall₂ Operation.Resembles ops ops') :
    (s.performAll ops).cleaned = (s.performAll ops').cleaned := by
  have same : ops.map Operation.cleaned = ops'.map Operation.cleaned := by
    rw [← List.forall₂_eq_eq_eq, List.forall₂_map_left_iff, List.forall₂_map_right_iff]
    exact h.imp fun _ _ => Operation.Resembles.cleaned
  rw [← performAll_cleaned, same, performAll_cleaned]

/-- **Execution depends on the text of a program only.** Two sequences of operations may load programs
that differ in slots past the operands. From any session they lead to sessions that a host cannot tell
apart by memory, counter, position, input, output, records or answers. In particular a program with a
statement can be replaced by what its text compiles to. -/
theorem spare_slots_unseen (start : Session) :
    (∀ ops ops', List.Forall₂ Operation.Resembles ops ops' →
      Indistinguishable (start.performAll ops) (start.performAll ops')) ∧
    ∀ p, p.size ≠ 0 → ∃ q, Source.compile p.text = .ok q ∧ ∀ before after,
      Indistinguishable (start.performAll (before ++ .load p :: after))
        (start.performAll (before ++ .load q :: after)) := by
  have alike : ∀ ops ops', List.Forall₂ Operation.Resembles ops ops' →
      Indistinguishable (start.performAll ops) (start.performAll ops') :=
    fun ops ops' h => indistinguishable_of_cleaned (start.performAll_resembles h)
  refine ⟨alike, fun p some_statement => ?_⟩
  refine ⟨p.cleaned, p.compile_text_cleaned some_statement, fun before after => alike _ _ ?_⟩
  have same (ops : List Operation) : List.Forall₂ Operation.Resembles ops ops :=
    List.forall₂_same.2 fun op _ => .same op
  exact List.rel_append (same before) (.cons (.load p.resembles_cleaned) (same after))

/-- A jump and a step back over it, with and without numbers in the slots that a jump does not use. -/
theorem spare_slots_unseen_jump :
    let start := ofMachine (.boot ⟨6, ⟨2, 4⟩, ⟨4, 6⟩⟩)
    let p : Program := ⟨#[⟨.rev, 2, 5, 5⟩, ⟨.jmpC, 0, 3, -1⟩]⟩
    let q : Program := ⟨#[⟨.rev, 2, 0, 0⟩, ⟨.jmpC, 0, 0, 0⟩]⟩
    let s := start.performAll [.feed [7], .load p, .run 3, .stepBack]
    let s' := start.performAll [.feed [7], .load q, .run 3, .stepBack]
    p.Resembles q ∧ s ≠ s' ∧ s.machine.memory = ⟨#[0, 0, -8, 0, 0, 0]⟩ ∧
      s'.machine.memory = s.machine.memory ∧
      (s.perform .stepIn).2.1.Resembles (s'.perform .stepIn).2.1 := by
  intro start p q s s'
  have resembles : p.Resembles q := by
    refine ⟨rfl, fun i s t hs ht => ?_⟩
    match i with
    | 0 =>
        cases hs
        cases ht
        exact ⟨rfl, rfl⟩
    | 1 =>
        cases hs
        cases ht
        exact ⟨rfl, rfl⟩
    | i + 2 => cases hs
  have same : Indistinguishable s s' := (spare_slots_unseen start).1 [.feed [7], .load p, .run 3, .stepBack]
    [.feed [7], .load q, .run 3, .stepBack]
    (.cons (.same _) (.cons (.load resembles) (.cons (.same _) (.cons (.same _) .nil))))
  have differ : s ≠ s' := by decide +kernel
  have memory : s.machine.memory = ⟨#[0, 0, -8, 0, 0, 0]⟩ := by decide +kernel
  exact ⟨resembles, differ, memory, same.memory.symm, same.reply _ _ (.same .stepIn)⟩

end Session

end Retrace
