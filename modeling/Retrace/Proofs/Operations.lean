import Mathlib.Algebra.Group.Nat.Defs
import Mathlib.Logic.Function.Iterate
import Retrace.Proofs.Interpreter
import Retrace.Session

/-!
# Operations of the machine

Every motion along the trace is a repetition of two elementary ones, and what a session does to its
machine does not depend on who is watching.

* `Machine.forward`, `Machine.back` : one step, with a machine that cannot move left as it is;
* `Machine.run_fst`, `Machine.rewind_fst` : longer motions are iterates;
* `Layout.initial` : the memory an execution starts from; `Layout.load_initial` : how new input
  replaces old;
* `Machine.perform` : what an operation does to the machine; `Session.machine_perform`;
* `Session.performAll`, `Session.Reachable` : operations one after the other, and where they lead;
* `Session.transcript` : what a host sees on the way.
-/

namespace Retrace

namespace Machine

/-! ## Single steps -/

/-- One step forward, if there is one. -/
def forward (m : Machine) : Machine := m.stepIn.1

/-- One step back, if there is one. -/
def back (m : Machine) : Machine := m.stepBack.getD m

theorem stepIn_of_future {m : Machine} {r : Record} {rest : List Record} (h : m.future = r :: rest) :
    m.stepIn =
      ({ m with
          memory := m.memory.redo r.commit
          counter := r.after
          past := r :: m.past
          future := rest }, .replayed r) := by
  unfold stepIn
  rw [h]

theorem stepIn_of_statement {m : Machine} {s : Statement} (h : m.future = [])
    (hs : m.program.get? m.counter = some s) :
    m.stepIn =
      ({ m with
          memory := (Record.ofStatement m.memory m.counter s).1
          counter := (Record.ofStatement m.memory m.counter s).2.after
          past := (Record.ofStatement m.memory m.counter s).2 :: m.past },
        .executed (Record.ofStatement m.memory m.counter s).2) := by
  unfold stepIn
  rw [h]
  simp only [hs]

theorem stepIn_of_end {m : Machine} (h : m.future = []) (hs : m.program.get? m.counter = none) :
    m.stepIn = (m, .halted) := by
  unfold stepIn
  rw [h]
  simp only [hs]

theorem stepBack_of_past {m : Machine} {r : Record} {rest : List Record} (h : m.past = r :: rest) :
    m.stepBack = some
      { m with
        memory := m.memory.undo r.commit
        counter := r.before
        past := rest
        future := r :: m.future } := by
  unfold stepBack
  rw [h]

theorem stepBack_of_start {m : Machine} (h : m.past = []) : m.stepBack = none := by
  unfold stepBack
  rw [h]

theorem cursor_le_length (m : Machine) : m.cursor ≤ m.history.length := by
  simp [cursor, history]

theorem length_history (m : Machine) : m.history.length = m.cursor + m.future.length := by
  simp [cursor, history]

/-- Everything a step forward can do to the trace. -/
theorem stepIn_cases (m : Machine) :
    (∃ r, m.stepIn.2 = .replayed r ∧ m.cursor < m.history.length ∧
      m.forward.history = m.history ∧ m.forward.cursor = m.cursor + 1) ∨
    (∃ r, m.stepIn.2 = .executed r ∧ m.cursor = m.history.length ∧
      m.forward.history = m.history ++ [r] ∧ m.forward.cursor = m.cursor + 1) ∨
    (m.stepIn.2 = .halted ∧ m.cursor = m.history.length ∧ m.forward = m) := by
  have length := m.length_history
  unfold forward
  cases hf : m.future with
  | cons r rest =>
      refine .inl ⟨r, ?_⟩
      rw [stepIn_of_future hf]
      refine ⟨rfl, ?_, by simp [history, hf], rfl⟩
      rw [length, hf, List.length_cons]
      omega
  | nil =>
      have frontier : m.cursor = m.history.length := by rw [length, hf]; rfl
      cases hs : m.program.get? m.counter with
      | some s =>
          refine .inr (.inl ⟨(Record.ofStatement m.memory m.counter s).2, ?_⟩)
          rw [stepIn_of_statement hf hs]
          exact ⟨rfl, frontier, by simp [history, hf], rfl⟩
      | none =>
          rw [stepIn_of_end hf hs]
          exact .inr (.inr ⟨rfl, frontier, rfl⟩)

/-- Everything a step back can do to the trace. -/
theorem stepBack_cases (m : Machine) :
    (m.stepBack = some m.back ∧ m.cursor = m.back.cursor + 1 ∧ m.back.history = m.history) ∨
    (m.stepBack = none ∧ m.cursor = 0 ∧ m.back = m) := by
  unfold back
  cases hp : m.past with
  | cons r rest =>
      rw [stepBack_of_past hp]
      exact .inl ⟨rfl, by simp [cursor, hp], by simp [history, hp]⟩
  | nil =>
      rw [stepBack_of_start hp]
      exact .inr ⟨rfl, by simp [cursor, hp], rfl⟩

/-- A machine that halts stays as it is. -/
theorem forward_eq_self {m : Machine} (h : m.stepIn.2 = .halted) : m.forward = m := by
  obtain ⟨r, replayed, -⟩ | ⟨r, executed, -⟩ | ⟨-, -, same⟩ := m.stepIn_cases
  · rw [replayed] at h
    exact absurd h (by simp)
  · rw [executed] at h
    exact absurd h (by simp)
  · exact same

/-! ## Repeated steps -/

theorem runFrom_fst (taken limit : Nat) (m : Machine) : (runFrom taken limit m).1 = forward^[limit] m := by
  induction limit generalizing taken m with
  | zero => rfl
  | succ limit ih =>
      rw [Function.iterate_succ_apply]
      unfold runFrom
      split
      · next m' h =>
        -- the run stops here, and the iterate stays where it is
        have halted : m.forward = m := forward_eq_self (by rw [h])
        rw [halted, Function.iterate_fixed halted]
        exact (congrArg Prod.fst h).symm.trans halted
      · next m' step _ h =>
        rw [ih]
        exact congrArg _ (congrArg Prod.fst h).symm

/-- A run is as many steps forward as it has limit: those past a halt do nothing. -/
theorem run_fst (limit : Nat) (m : Machine) : (m.run limit).1 = forward^[limit] m :=
  runFrom_fst 0 limit m

theorem retreat_eq (limit : Nat) (m : Machine) : retreat limit m = back^[limit] m := by
  induction limit generalizing m with
  | zero => rfl
  | succ limit ih =>
      rw [Function.iterate_succ_apply]
      unfold retreat
      cases h : m.stepBack with
      | none =>
          have stays : m.back = m := by rw [back, h]; rfl
          rw [stays, Function.iterate_fixed stays]
      | some m' =>
          have moves : m.back = m' := by rw [back, h]; rfl
          rw [moves]
          exact ih m'

theorem rewind_fst (m : Machine) : m.rewind.1 = back^[m.cursor] m :=
  retreat_eq m.cursor m

/-! ## Input -/

theorem length_fit (n : Nat) (values : List Word) : (fit n values).length = n := by
  simp only [fit, List.length_append, List.length_take, List.length_replicate]
  omega

theorem getElem?_fit (n : Nat) (values : List Word) (k : Nat) (hk : k < n) :
    (fit n values)[k]? = some (values.getD k 0) := by
  rw [fit, List.getD_eq_getElem?_getD]
  by_cases h : k < values.length
  · rw [List.getElem?_append_left (by rw [List.length_take]; omega), List.getElem?_take_of_lt hk]
    simp [h]
  · rw [List.getElem?_append_right (by rw [List.length_take]; omega), List.length_take,
      List.getElem?_replicate, if_pos (by omega), List.getElem?_eq_none (by omega)]
    rfl

end Machine

namespace Memory

theorem get?_load (m : Memory) (start : Nat) (values : List Word) (j : Nat) :
    (m.load start values).get? j =
      if start ≤ j ∧ j < start + values.length ∧ j < m.size then values[j - start]? else m.get? j := by
  induction values generalizing m start with
  | nil => rw [if_neg (by simp only [List.length_nil]; omega)]; rfl
  | cons value rest ih =>
      rw [load, ih, size_set, get?_set]
      simp only [List.length_cons]
      by_cases here : start = j ∧ j < m.size
      · have first : start ≤ j ∧ j < start + (rest.length + 1) ∧ j < m.size := by omega
        have past : ¬ (start + 1 ≤ j ∧ j < start + 1 + rest.length ∧ j < m.size) := by omega
        rw [if_pos first, if_neg past, if_pos here, show j - start = 0 by omega]
        rfl
      · rw [if_neg here]
        have tail : (start ≤ j ∧ j < start + (rest.length + 1) ∧ j < m.size) ↔
            (start + 1 ≤ j ∧ j < start + 1 + rest.length ∧ j < m.size) := by omega
        simp only [tail]
        split_ifs with h
        · rw [show j - start = j - (start + 1) + 1 by omega, List.getElem?_cons_succ]
        · rfl

theorem get?_zeros (n j : Nat) : (zeros n).get? j = if j < n then some 0 else none := by
  simp [zeros, get?, Array.getElem?_replicate]

end Memory

namespace Layout

/-- Zeros but for the input span, which holds `values`, cut off at its end or filled up with
zeros. -/
def initial (l : Layout) (values : List Word) : Memory :=
  ⟨Array.ofFn fun i : Fin l.size.toNat =>
    if l.input.start.toNat ≤ i ∧ i < l.input.stop.toNat then values.getD (i - l.input.start.toNat) 0
    else 0⟩

@[simp] theorem size_initial (l : Layout) (values : List Word) : (l.initial values).size = l.size.toNat := by
  simp [initial, Memory.size]

theorem get?_initial (l : Layout) (values : List Word) (j : Nat) :
    (l.initial values).get? j =
      if j < l.size.toNat then
        some (if l.input.start.toNat ≤ j ∧ j < l.input.stop.toNat then
          values.getD (j - l.input.start.toNat) 0 else 0)
      else none := by
  simp only [initial, Memory.get?, Array.getElem?_ofFn]
  split <;> rfl

theorem initial_nil (l : Layout) : l.initial [] = .zeros l.size.toNat := by
  apply Memory.eq_of_get?
  intro j
  rw [get?_initial, Memory.get?_zeros]
  simp

/-- Loading input over a starting memory leaves no trace of the input it held. -/
theorem load_initial (l : Layout) (old new : List Word) :
    (l.initial old).load l.input.start.toNat (Machine.fit l.input.length new) = l.initial new := by
  apply Memory.eq_of_get?
  intro j
  rw [Memory.get?_load, Machine.length_fit, size_initial, get?_initial, get?_initial]
  by_cases hj : l.input.start.toNat ≤ j ∧ j < l.input.stop.toNat ∧ j < l.size.toNat
  · have inside : l.input.start.toNat ≤ j ∧ j < l.input.start.toNat + l.input.length ∧
        j < l.size.toNat := by
      unfold Span.length
      omega
    have place : j - l.input.start.toNat < l.input.length := by omega
    rw [if_pos inside, Machine.getElem?_fit _ _ _ place, if_pos hj.2.2, if_pos ⟨hj.1, hj.2.1⟩]
  · have outside : ¬ (l.input.start.toNat ≤ j ∧ j < l.input.start.toNat + l.input.length ∧
        j < l.size.toNat) := by
      unfold Span.length
      omega
    rw [if_neg outside]
    by_cases hs : j < l.size.toNat
    · have apart : ¬ (l.input.start.toNat ≤ j ∧ j < l.input.stop.toNat) := by omega
      rw [if_pos hs, if_pos hs, if_neg apart, if_neg apart]
    · rw [if_neg hs, if_neg hs]

end Layout

namespace Machine

/-- A machine with an empty trace. -/
theorem isFresh_iff (m : Machine) : m.isFresh = true ↔ m.history = [] := by
  simp [isFresh, history]

theorem feed_of_recorded {m : Machine} (recorded : m.history ≠ []) (values : List Word) :
    m.feed values = { m with input := values } := by
  unfold feed
  rw [if_neg fun fresh => recorded ((isFresh_iff m).1 fresh)]

theorem reset_eq {m : Machine} (h : m.memory.size = m.layout.size.toNat) :
    m.reset =
      { m with memory := m.layout.initial m.input, counter := 0, past := [], future := [] } := by
  unfold reset inputLoaded Memory.cleared
  simp only [h, ← Layout.initial_nil, Layout.load_initial]

/-! ## Operations -/

open Session in
/-- What an operation does to the machine. -/
def perform (m : Machine) : Operation → Machine
  | .load p => m.load p
  | .feed values => m.feed values
  | .stepIn => m.forward
  | .stepBack => m.back
  | .run limit => (m.run limit).1
  | .rewind => m.rewind.1
  | .clear => m.clear
  | .subscribe => m
  | .unsubscribe _ => m

end Machine

namespace Session

/-- The session with another machine. -/
abbrev withMachine (s : Session) (m : Machine) : Session := { s with machine := m }

theorem stepIn_fst (s : Session) : s.stepIn.1 = s.withMachine s.machine.forward := by
  unfold stepIn
  split
  · next h =>
    have halted : s.machine.forward = s.machine := Machine.forward_eq_self (by rw [h])
    rw [halted]
  · next m r h => rw [Machine.forward, h]; rfl
  · next m r h => rw [Machine.forward, h]; rfl

theorem stepIn_step (s : Session) : s.stepIn.2.1 = s.machine.stepIn.2 := by
  unfold stepIn
  split <;> next h => rw [h]

theorem stepBack_eq (s : Session) : (s.stepBack.map fun x => x.1) = s.machine.stepBack.map s.withMachine := by
  unfold stepBack
  split <;> next h => rw [h]; rfl

theorem runFrom_fst (taken : Nat) (sent : Emission) (limit : Nat) (s : Session) :
    (runFrom taken sent limit s).1 = s.withMachine (Machine.forward^[limit] s.machine) := by
  induction limit generalizing taken sent s with
  | zero => rfl
  | succ limit ih =>
      have one := s.stepIn_fst
      have step := s.stepIn_step
      rw [Function.iterate_succ_apply]
      unfold runFrom
      split
      · next s' _ h =>
        have halted : s.machine.forward = s.machine := Machine.forward_eq_self (by rw [← step, h])
        rw [halted, Function.iterate_fixed halted]
        rw [h, halted] at one
        exact one
      · next s' step _ _ h =>
        rw [h] at one
        rw [ih, show s' = _ from one]

theorem retreat_fst (sent : Emission) (limit : Nat) (s : Session) :
    (retreat sent limit s).1 = s.withMachine (Machine.back^[limit] s.machine) := by
  induction limit generalizing sent s with
  | zero => rfl
  | succ limit ih =>
      have one := s.stepBack_eq
      rw [Function.iterate_succ_apply]
      unfold retreat
      cases h : s.stepBack with
      | none =>
          rw [h, Option.map_none] at one
          have stays : s.machine.back = s.machine := by
            rw [Machine.back, Option.map_eq_none_iff.1 one.symm]
            rfl
          rw [stays, Function.iterate_fixed stays]
      | some x =>
          rw [h, Option.map_some] at one
          obtain ⟨m, hm, hx⟩ := Option.map_eq_some_iff.1 one.symm
          have moves : s.machine.back = m := by rw [Machine.back, hm]; rfl
          simp only
          rw [ih, moves, ← hx]

theorem perform_stepIn (s : Session) : (s.perform .stepIn).1 = s.withMachine s.machine.forward :=
  s.stepIn_fst

theorem perform_stepBack (s : Session) : (s.perform .stepBack).1 = s.withMachine s.machine.back := by
  have one := s.stepBack_eq
  unfold perform Machine.back
  cases h : s.stepBack with
  | none =>
      rw [h, Option.map_none] at one
      rw [Option.map_eq_none_iff.1 one.symm]
      rfl
  | some x =>
      rw [h, Option.map_some] at one
      obtain ⟨m, hm, hx⟩ := Option.map_eq_some_iff.1 one.symm
      rw [hm]
      exact hx.symm

theorem perform_run (s : Session) (limit : Nat) :
    (s.perform (.run limit)).1 = s.withMachine (s.machine.run limit).1 := by
  rw [Machine.run_fst]
  exact runFrom_fst 0 .empty limit s

theorem perform_rewind (s : Session) : (s.perform .rewind).1 = s.withMachine s.machine.rewind.1 := by
  rw [Machine.rewind_fst]
  exact retreat_fst .empty s.machine.cursor s

/-- What a session does to its machine. -/
theorem machine_perform (s : Session) (op : Operation) :
    (s.perform op).1.machine = s.machine.perform op := by
  cases op with
  | load p => rfl
  | feed values =>
      simp only [perform, Machine.perform, feed]
      split <;> rfl
  | stepIn => rw [perform_stepIn]; rfl
  | stepBack => rw [perform_stepBack]; rfl
  | run limit => rw [perform_run]; rfl
  | rewind => rw [perform_rewind]; rfl
  | clear => rfl
  | subscribe => rfl
  | unsubscribe id => rfl

/-- Operations one after the other. -/
def performAll (s : Session) : List Operation → Session
  | [] => s
  | op :: rest => (s.perform op).1.performAll rest

theorem performAll_append (s : Session) (ops more : List Operation) :
    s.performAll (ops ++ more) = (s.performAll ops).performAll more := by
  induction ops generalizing s with
  | nil => rfl
  | cons op rest ih => exact ih (s.perform op).1

/-- What a host sees after an operation: the state, the answer and what was sent out. -/
structure Observation where
  view : View
  output : List Word
  reply : Reply
  sent : Emission
  deriving DecidableEq

/-- What a host sees after each of some operations. -/
def transcript (s : Session) : List Operation → List Observation
  | [] => []
  | op :: rest =>
    let (s', reply, sent) := s.perform op
    ⟨s'.machine.view, s'.machine.output, reply, sent⟩ :: s'.transcript rest

theorem transcript_cons (s : Session) (op : Operation) (rest : List Operation) :
    s.transcript (op :: rest) =
      ⟨(s.perform op).1.machine.view, (s.perform op).1.machine.output, (s.perform op).2.1,
        (s.perform op).2.2⟩ :: (s.perform op).1.transcript rest := rfl

/-- Operations lead from a new machine to this session. -/
def Reachable (s : Session) : Prop :=
  ∃ layout m ops, Machine.create layout = .ok m ∧ (ofMachine m).performAll ops = s

end Session

theorem Memory.fits_iff {size : Nat} : Fits size ↔ size < 2 ^ 61 := by
  unfold Fits
  omega

namespace Machine

/-- A machine is created exactly for a layout that is accepted and a memory that can be, and it has
them and nothing else. -/
theorem create_eq_ok_iff {l : Layout} {m : Machine} :
    create l = .ok m ↔ l.validate = .ok () ∧ Memory.Fits l.size.toNat ∧ m = boot l := by
  unfold create Memory.allocate?
  cases valid : l.validate with
  | error e => simp
  | ok u =>
      by_cases fits : Memory.Fits l.size.toNat
      · simp [fits, boot, eq_comm]
      · simp [fits]

theorem create_eq_ok {l : Layout} {m : Machine} (h : create l = .ok m) : m = boot l :=
  (create_eq_ok_iff.1 h).2.2

theorem validate_of_create {l : Layout} {m : Machine} (h : create l = .ok m) : l.validate = .ok () :=
  (create_eq_ok_iff.1 h).1

theorem fits_of_create {l : Layout} {m : Machine} (h : create l = .ok m) : Memory.Fits l.size.toNat :=
  (create_eq_ok_iff.1 h).2.1

theorem create_of_fits {l : Layout} (valid : l.validate = .ok ()) (fits : Memory.Fits l.size.toNat) :
    create l = .ok (boot l) :=
  create_eq_ok_iff.2 ⟨valid, fits, rfl⟩

theorem create_of_not_fits {l : Layout} (valid : l.validate = .ok ()) (tooLarge : ¬ Memory.Fits l.size.toNat) :
    create l = .error .overflow := by
  unfold create Memory.allocate?
  rw [valid]
  simp [tooLarge]

end Machine

end Retrace
