import Mathlib.Data.List.Iterate
import Mathlib.Data.List.Nodup
import Retrace.Proofs.Halting

/-!
# Listeners

Every single change of a machine is announced once to every live subscription, oldest first, with
the view right after that change. So whoever listens knows the present view.

* `Machine.changes` : the machines right after each single change of an operation;
* `Session.notices_perform` : an operation sends the view of each of them to every listener;
* `Session.Announces` : how many announcements go with an answer;
* `Session.Live` : subscribed by one of some operations and not unsubscribed by a later one;
* `Session.Registered` : the listeners are the live subscriptions, kept by every operation;
* `Session.received` : the views a subscriber was sent; `Session.last_received` : the last of them
  is the present one;
* `Session.listeners_kept_informed` : the contract with listeners.
-/

namespace Retrace

namespace Machine

/-! ## Changes -/

open Session in
/-- The machines right after each single change an operation makes, in order. -/
def changes (m : Machine) : Operation → List Machine
  | .load p => [m.load p]
  | .clear => [m.clear]
  | .feed values => if m.history = [] then [m.feed values] else []
  | .stepIn => if m.stepIn.2 = .halted then [] else [m.forward]
  | .stepBack => if m.cursor = 0 then [] else [m.back]
  | .run limit => List.iterate forward m.forward (moves limit m)
  | .rewind => List.iterate back m.back m.cursor
  | .subscribe => []
  | .unsubscribe _ => []

theorem getLast?_iterate {α : Type} (f : α → α) (a : α) (n : Nat) :
    (List.iterate f (f a) n).getLast?.getD a = f^[n] a := by
  induction n generalizing a with
  | zero => rfl
  | succ n ih =>
      rw [List.iterate, List.getLast?_cons, Option.getD_some, ih, Function.iterate_succ_apply]

/-- An operation ends with the last of its changes, or shows no change at all. -/
theorem view_changes (m : Machine) (op : Session.Operation) :
    ((m.changes op).getLast?.getD m).view = (m.perform op).view := by
  cases op with
  | load p => rfl
  | clear => rfl
  | feed values =>
      by_cases fresh : m.history = []
      · rw [changes, if_pos fresh]
        rfl
      · rw [changes, if_neg fresh, perform, feed_of_recorded fresh]
        rfl
  | stepIn =>
      by_cases stuck : m.stepIn.2 = .halted
      · rw [changes, if_pos stuck, perform, forward_eq_self stuck]
        rfl
      · rw [changes, if_neg stuck]
        rfl
  | stepBack =>
      obtain ⟨-, cursor, -⟩ | ⟨-, cursor, same⟩ := m.stepBack_cases
      · rw [changes, if_neg (by omega)]
        rfl
      · rw [changes, if_pos cursor, perform, same]
        rfl
  | run limit => rw [changes, getLast?_iterate, iterate_moves, perform, run_fst]
  | rewind => rw [changes, getLast?_iterate, perform, rewind_fst]
  | subscribe => rfl
  | unsubscribe id => rfl

end Machine

namespace Session

/-- The view of a machine for every listener of a session. -/
abbrev tell (s : Session) (m : Machine) : List Notice :=
  s.listeners.map fun id => ⟨id, m.view⟩

theorem notices_append (x y : Emission) : (x ++ y).notices = x.notices ++ y.notices := rfl

theorem notices_stepIn (s : Session) :
    s.stepIn.2.2.notices.toList = (s.machine.changes .stepIn).flatMap s.tell := by
  unfold Machine.changes Machine.forward stepIn
  split <;> next h => simp [h, changed, announce, Emission.empty]

/-- Everything a step back can do to a session and its listeners. -/
theorem stepBack_cases (s : Session) :
    (∃ out, s.stepBack = some (s.withMachine s.machine.back, out) ∧
      out.notices.toList = s.tell s.machine.back ∧ s.machine.cursor = s.machine.back.cursor + 1) ∨
    (s.stepBack = none ∧ s.machine.cursor = 0) := by
  unfold stepBack
  obtain ⟨moved, cursor, -⟩ | ⟨stuck, start, -⟩ := s.machine.stepBack_cases
  · rw [moved]
    exact .inl ⟨_, rfl, rfl, cursor⟩
  · rw [stuck]
    exact .inr ⟨rfl, start⟩

theorem notices_runFrom (taken : Nat) (sent : Emission) (limit : Nat) (s : Session) :
    (runFrom taken sent limit s).2.2.notices.toList =
      sent.notices.toList ++
        (List.iterate Machine.forward s.machine.forward (Machine.moves limit s.machine)).flatMap s.tell := by
  induction limit generalizing taken sent s with
  | zero => exact (List.append_nil _).symm
  | succ limit ih =>
      by_cases stuck : s.machine.stepIn.2 = .halted
      · rw [runFrom_of_halted stuck, Machine.moves_of_halted stuck]
        exact (List.append_nil _).symm
      · have told := s.notices_stepIn
        rw [Machine.changes, if_neg stuck, List.flatMap_singleton] at told
        rw [runFrom_of_moving stuck, ih, notices_append, Array.toList_append, told,
          Machine.moves_succ stuck, List.iterate, List.flatMap_cons, List.append_assoc]

theorem notices_retreat (sent : Emission) (limit : Nat) (s : Session) (h : limit ≤ s.machine.cursor) :
    (retreat sent limit s).2.notices.toList =
      sent.notices.toList ++ (List.iterate Machine.back s.machine.back limit).flatMap s.tell := by
  induction limit generalizing sent s with
  | zero => exact (List.append_nil _).symm
  | succ limit ih =>
      obtain ⟨out, moved, told, cursor⟩ | ⟨-, start⟩ := s.stepBack_cases
      · have room : limit ≤ (s.withMachine s.machine.back).machine.cursor := by
          change limit ≤ s.machine.back.cursor
          omega
        rw [retreat, moved]
        simp only
        rw [ih _ _ room, notices_append, Array.toList_append, told, List.iterate, List.flatMap_cons,
          List.append_assoc]
      · omega

/-- An operation tells every listener of each of its changes. -/
theorem notices_perform (s : Session) (op : Operation) :
    (s.perform op).2.2.notices.toList = (s.machine.changes op).flatMap s.tell := by
  cases op with
  | load p => simp [perform, load, changed, announce, Machine.changes]
  | clear => simp [perform, clear, changed, announce, Machine.changes]
  | feed values =>
      by_cases fresh : s.machine.history = []
      · have now : s.machine.isFresh = true := (Machine.isFresh_iff _).2 fresh
        simp [perform, feed, now, changed, announce, Machine.changes, fresh]
      · have later : s.machine.isFresh ≠ true := fun h => fresh ((Machine.isFresh_iff _).1 h)
        simp [perform, feed, later, Machine.changes, fresh]
  | stepIn => exact s.notices_stepIn
  | stepBack =>
      obtain ⟨out, moved, told, cursor⟩ | ⟨stuck, start⟩ := s.stepBack_cases
      · rw [perform, moved, Machine.changes, if_neg (by omega), List.flatMap_singleton]
        exact told
      · rw [perform, stuck, Machine.changes, if_pos start]
        rfl
  | run limit =>
      have told := notices_runFrom 0 .empty limit s
      simp only [perform, run, notices_append, Array.toList_append, told]
      simp [Emission.empty, Machine.changes]
  | rewind =>
      have told := notices_retreat .empty s.machine.cursor s (Nat.le_refl _)
      simp only [perform, rewind, told]
      simp [Emission.empty, Machine.changes]
  | subscribe => rfl
  | unsubscribe id => rfl

/-- The number of announcements that goes with an operation and its answer, on a machine whose trace
is empty or not. -/
inductive Announces (fresh : Bool) : Operation → Reply → Nat → Prop where
  | load (p : Program) : Announces fresh (.load p) .done 1
  | clear : Announces fresh .clear .done 1
  | feed (values : List Word) : Announces fresh (.feed values) .done (if fresh then 1 else 0)
  | halted : Announces fresh .stepIn (.stepped .halted) 0
  | stepped {step : Step} (moved : step ≠ .halted) : Announces fresh .stepIn (.stepped step) 1
  | back (moved : Bool) : Announces fresh .stepBack (.moved moved) (if moved then 1 else 0)
  | run (limit : Nat) (outcome : RunOutcome) : Announces fresh (.run limit) (.finished outcome) outcome.steps
  | rewind (steps : Nat) : Announces fresh .rewind (.rewound steps) steps
  | subscribe (id : Nat) : Announces fresh .subscribe (.subscribed id) 0
  | unsubscribe (id : Nat) (found : Bool) : Announces fresh (.unsubscribe id) (.unsubscribed found) 0

theorem announces_perform (s : Session) (op : Operation) :
    Announces s.machine.history.isEmpty op (s.perform op).2.1 (s.machine.changes op).length := by
  cases op with
  | load p => exact .load p
  | clear => exact .clear
  | feed values =>
      have count : (s.machine.changes (.feed values)).length =
          if s.machine.history.isEmpty then 1 else 0 := by
        unfold Machine.changes
        simp only [List.isEmpty_iff]
        split <;> rfl
      rw [count]
      exact .feed values
  | stepIn =>
      rw [reply_stepIn, Machine.changes]
      by_cases stuck : s.machine.stepIn.2 = .halted
      · rw [if_pos stuck, stuck]
        exact .halted
      · rw [if_neg stuck]
        exact .stepped stuck
  | stepBack =>
      have count : (s.machine.changes .stepBack).length = if s.machine.stepBack.isSome then 1 else 0 := by
        rw [Machine.changes]
        obtain ⟨moved, cursor, -⟩ | ⟨stuck, start, -⟩ := s.machine.stepBack_cases
        · rw [if_neg (by omega), moved]
          rfl
        · rw [if_pos start, stuck]
          rfl
      rw [reply_stepBack, count]
      exact .back _
  | run limit =>
      rw [reply_run, Machine.changes, List.length_iterate]
      exact .run limit ⟨_, _⟩
  | rewind =>
      rw [Machine.changes, List.length_iterate]
      exact .rewind s.machine.cursor
  | subscribe => exact .subscribe s.nextId
  | unsubscribe id => exact .unsubscribe id _

/-! ## Live subscriptions -/

/-- Subscription `id`, counted from zero, is made by one of the operations and not given up by a
later one. -/
def Live (ops : List Operation) (id : Nat) : Prop :=
  ∃ before after, ops = before ++ .subscribe :: after ∧ before.count .subscribe = id ∧
    .unsubscribe id ∉ after

theorem live_nil (id : Nat) : ¬ Live [] id := by
  rintro ⟨before, after, eq, -⟩
  exact absurd eq (by simp)

theorem live_concat (ops : List Operation) (op : Operation) (id : Nat) :
    Live (ops ++ [op]) id ↔
      op = .subscribe ∧ ops.count .subscribe = id ∨ Live ops id ∧ op ≠ .unsubscribe id := by
  constructor
  · rintro ⟨before, after, eq, number, kept⟩
    -- the subscription is the last operation, or the last operation is one that came later
    rcases List.eq_nil_or_concat after with rfl | ⟨after, last, rfl⟩
    · obtain ⟨rfl, same⟩ := List.append_inj' eq rfl
      exact .inl ⟨by simpa using same, number⟩
    · rw [List.concat_eq_append, ← List.cons_append, ← List.append_assoc] at eq
      obtain ⟨rfl, same⟩ := List.append_inj' eq rfl
      obtain rfl : op = last := by simpa using same
      rw [List.concat_eq_append, List.mem_append, not_or] at kept
      exact .inr ⟨⟨before, after, rfl, number, kept.1⟩, fun gone => kept.2 (by simp [gone])⟩
  · rintro (⟨rfl, number⟩ | ⟨⟨before, after, rfl, number, kept⟩, op_ne⟩)
    · exact ⟨ops, [], rfl, number, by simp⟩
    · refine ⟨before, after ++ [op], by simp, number, ?_⟩
      rw [List.mem_append, not_or]
      exact ⟨kept, by simpa using op_ne.symm⟩

/-- The operations that change who listens, and those that concern the machine alone. -/
theorem perform_cases (s : Session) (op : Operation) :
    (op = .subscribe ∧ (s.perform op).1 = ⟨s.machine, s.nextId + 1, s.listeners ++ [s.nextId]⟩) ∨
    (∃ id, op = .unsubscribe id ∧ (s.perform op).1 = ⟨s.machine, s.nextId, s.listeners.filter (· ≠ id)⟩) ∨
    (op ≠ .subscribe ∧ (∀ id, op ≠ .unsubscribe id) ∧
      (s.perform op).1 = s.withMachine (s.machine.perform op)) := by
  cases op with
  | subscribe => exact .inl ⟨rfl, rfl⟩
  | unsubscribe id => exact .inr (.inl ⟨id, rfl, rfl⟩)
  | load p => exact .inr (.inr ⟨by simp, by simp, rfl⟩)
  | clear => exact .inr (.inr ⟨by simp, by simp, rfl⟩)
  | feed values =>
      refine .inr (.inr ⟨by simp, by simp, ?_⟩)
      simp only [perform, feed]
      split <;> rfl
  | stepIn => exact .inr (.inr ⟨by simp, by simp, s.perform_stepIn⟩)
  | stepBack => exact .inr (.inr ⟨by simp, by simp, s.perform_stepBack⟩)
  | run limit => exact .inr (.inr ⟨by simp, by simp, s.perform_run limit⟩)
  | rewind => exact .inr (.inr ⟨by simp, by simp, s.perform_rewind⟩)

/-- The listeners are the live subscriptions, in the order of their numbers. -/
structure Registered (ops : List Operation) (s : Session) : Prop where
  next : s.nextId = ops.count .subscribe
  below : ∀ id ∈ s.listeners, id < s.nextId
  ascending : s.listeners.Pairwise (· < ·)
  live : ∀ id, id ∈ s.listeners ↔ Live ops id

namespace Registered

variable {ops : List Operation} {s : Session}

theorem ofMachine (m : Machine) : Registered [] (ofMachine m) where
  next := rfl
  below := by simp [Session.ofMachine]
  ascending := .nil
  live id := by simp [Session.ofMachine, live_nil]

theorem perform (h : Registered ops s) (op : Operation) :
    Registered (ops ++ [op]) (s.perform op).1 := by
  obtain ⟨rfl, eq⟩ | ⟨id, rfl, eq⟩ | ⟨subscribe, unsubscribe, eq⟩ := s.perform_cases op
  · rw [eq]
    constructor
    · simp [h.next]
    · intro id member
      rcases List.mem_append.1 member with old | new
      · exact Nat.lt_succ_of_lt (h.below id old)
      · rw [List.mem_singleton.1 new]
        exact Nat.lt_succ_self _
    · rw [List.pairwise_append]
      refine ⟨h.ascending, List.pairwise_singleton _ _, fun id old new member => ?_⟩
      rw [List.mem_singleton.1 member]
      exact h.below id old
    · intro id
      rw [live_concat, ← h.live, List.mem_append, List.mem_singleton, h.next]
      simp [or_comm, eq_comm]
  · rw [eq]
    constructor
    · simp [h.next]
    · exact fun id member => h.below id (List.mem_filter.1 member).1
    · exact h.ascending.filter _
    · intro other
      rw [live_concat, ← h.live, List.mem_filter, decide_eq_true_iff]
      grind
  · rw [eq]
    constructor
    · rw [List.count_append, List.count_singleton, ← h.next]
      simp [subscribe]
    · exact h.below
    · exact h.ascending
    · intro id
      rw [live_concat, ← h.live]
      simp [subscribe, unsubscribe]

theorem performAll (h : Registered ops s) (more : List Operation) :
    Registered (ops ++ more) (s.performAll more) := by
  induction more generalizing ops s with
  | nil => rwa [List.append_nil]
  | cons op rest ih =>
      rw [← List.singleton_append, ← List.append_assoc]
      exact ih (h.perform op)

end Registered

/-! ## What a listener knows -/

/-- The views a subscriber is sent in the course of operations. -/
def received (s : Session) (id : Nat) (ops : List Operation) : List View :=
  (((s.transcript ops).flatMap fun o => o.sent.notices.toList).filter (·.subscriber = id)).map (·.view)

theorem received_cons (s : Session) (id : Nat) (op : Operation) (rest : List Operation) :
    s.received id (op :: rest) =
      ((s.perform op).2.2.notices.toList.filter (·.subscriber = id)).map (·.view) ++
        (s.perform op).1.received id rest := by
  unfold received
  rw [← List.map_append, ← List.filter_append]
  rfl

theorem received_append (s : Session) (id : Nat) (ops more : List Operation) :
    s.received id (ops ++ more) = s.received id ops ++ (s.performAll ops).received id more := by
  induction ops generalizing s with
  | nil => rfl
  | cons op rest ih =>
      rw [List.cons_append, received_cons, ih, received_cons, List.append_assoc]
      rfl

theorem views_tell {s : Session} {id : Nat} (ascending : s.listeners.Pairwise (· < ·))
    (listening : id ∈ s.listeners) (m : Machine) :
    ((s.tell m).filter (·.subscriber = id)).map (·.view) = [m.view] := by
  have once : s.listeners.count id = 1 :=
    List.count_eq_one_of_mem (ascending.imp Nat.ne_of_lt) listening
  have mine : s.listeners.filter (· = id) = [id] := by rw [List.filter_eq, once]; rfl
  rw [List.filter_map, List.map_map]
  exact congrArg (List.map fun _ => m.view) mine

/-- A listener is sent the view of every change, and nothing else. -/
theorem views_perform {s : Session} {id : Nat} (ascending : s.listeners.Pairwise (· < ·))
    (listening : id ∈ s.listeners) (op : Operation) :
    ((s.perform op).2.2.notices.toList.filter (·.subscriber = id)).map (·.view) =
      (s.machine.changes op).map (·.view) := by
  rw [notices_perform]
  induction s.machine.changes op with
  | nil => rfl
  | cons m rest ih =>
      rw [List.flatMap_cons, List.filter_append, List.map_append, ih, views_tell ascending listening]
      rfl

/-- Whoever listens knows the present view: the last one received, or else the one at the start. -/
theorem last_received {before : List Operation} {s : Session} {id : Nat} (ops : List Operation)
    (h : Registered before s) (listening : id ∈ s.listeners) (kept : .unsubscribe id ∉ ops) :
    (s.received id ops).getLast?.getD s.machine.view = (s.performAll ops).machine.view := by
  induction ops generalizing before s with
  | nil => rfl
  | cons op rest ih =>
      rw [List.mem_cons, not_or] at kept
      have still : id ∈ (s.perform op).1.listeners := by
        rw [(h.perform op).live, live_concat, ← h.live]
        exact .inr ⟨listening, Ne.symm kept.1⟩
      have here : ((s.machine.changes op).map (·.view)).getLast?.getD s.machine.view =
          (s.perform op).1.machine.view := by
        rw [List.getLast?_map, Option.getD_map, s.machine.view_changes, machine_perform]
      rw [received_cons, views_perform h.ascending listening, List.getLast?_append, Option.getD_or, here]
      exact ih (h.perform op) still kept.2

/-- A listener that saw the view change was sent the present view last. -/
theorem last_received_of_change {before ops : List Operation} {s : Session} {id : Nat}
    (h : Registered before s) (listening : id ∈ s.listeners) (kept : .unsubscribe id ∉ ops) {k : Nat}
    (change : (s.performAll (ops.take k)).machine.view ≠ s.machine.view) :
    (s.received id ops).getLast? = some (s.performAll ops).machine.view := by
  have known := last_received ops h listening kept
  cases last : (s.received id ops).getLast? with
  | some view => rw [← known, last]; rfl
  | none =>
      -- nothing was received at all, so nothing up to the change either
      have nothing : s.received id ops = [] := List.getLast?_eq_none_iff.1 last
      have early : s.received id (ops.take k) = [] := by
        rw [← List.take_append_drop k ops, received_append] at nothing
        exact (List.append_eq_nil_iff.1 nothing).1
      have same := last_received (ops.take k) h listening fun member =>
        kept (List.mem_of_mem_take member)
      rw [early] at same
      exact absurd same.symm change

end Session

end Retrace
