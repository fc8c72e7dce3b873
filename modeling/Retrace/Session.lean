import Retrace.Machine
import Retrace.Source

/-!
# Watched machines

A session is a machine with listeners. Every change of the machine is announced to the listeners in
the order in which they subscribed, and operations leave events in a log.

* `Event` : a log entry, with its level, message and fields;
* `Notice` : a view delivered to a subscriber;
* `Session` : a machine, its live subscriptions and the number of the next one;
* `Session.Operation`, `Session.perform` : everything a host can ask of a session;
* `Session.summary` : the one-line description.
-/

namespace Retrace

inductive Level where
  | debug | trace
  deriving DecidableEq, Repr

inductive Event where
  | compileFailed (line : Nat) (error : CompileError)
  | noStatements
  | compiled (statements : Nat)
  | loading (statements : Nat)
  | clearing (history : Nat)
  | inputDeferred (length : Nat)
  | replayed (cursor : Nat) (counter : Word)
  | executed (record : Record)
  | neutralized (counter : Word) (addresses : OrderedSet Word)
  | steppedBack (cursor : Nat) (counter : Word)
  | runFinished (outcome : RunOutcome)
  deriving DecidableEq

namespace Event

def level : Event → Level
  | replayed .. | executed .. | steppedBack .. => .trace
  | _ => .debug

def message : Event → String
  | compileFailed .. => "compile failed"
  | noStatements => "compile failed: no statements"
  | compiled .. => "compiled program"
  | loading .. => "loading program"
  | clearing .. => "clearing execution"
  | inputDeferred .. => "input deferred until reset"
  | replayed .. => "step replayed"
  | executed .. => "step executed"
  | neutralized .. => "out-of-bounds access neutralized"
  | steppedBack .. => "stepped back"
  | runFinished .. => "run finished"

/-- Words in braces, separated by commas. -/
def setText (s : OrderedSet Word) : String :=
  "\x7b" ++ String.intercalate ", " (s.toList.map Word.text) ++ "\x7d"

def fields : Event → List (String × String)
  | compileFailed line error => [("line", line.repr), ("error", error.message)]
  | noStatements => []
  | compiled n => [("statements", n.repr)]
  | loading n => [("statements", n.repr)]
  | clearing n => [("history", n.repr)]
  | inputDeferred n => [("len", n.repr)]
  | replayed cursor counter => [("cursor", cursor.repr), ("counter", counter.text)]
  | executed r =>
    [("counter", r.before.text), ("next", r.after.text), ("statement", r.statement.text),
      ("writes", r.commit.records.length.repr)]
  | neutralized counter addresses =>
    [("counter", counter.text), ("addresses", setText addresses)]
  | steppedBack cursor counter => [("cursor", cursor.repr), ("counter", counter.text)]
  | runFinished o => [("steps", o.steps.repr), ("halted", if o.halted then "true" else "false")]

def ofCompilation : Except CompileError Program → Event
  | .ok p => compiled p.size
  | .error .emptyProgram => noStatements
  | .error (.atLine line fault) => compileFailed line (.atLine line fault)

def ofExecution (r : Record) : List Event :=
  if r.footprint.outOfBounds.toList.isEmpty then [executed r]
  else [executed r, neutralized r.before r.footprint.outOfBounds]

end Event

structure Notice where
  subscriber : Nat
  view : View
  deriving DecidableEq

/-- What an operation sends out: notices and log entries, each in order. -/
structure Emission where
  notices : Array Notice
  events : Array Event
  deriving DecidableEq

namespace Emission

def empty : Emission := ⟨#[], #[]⟩

def append (x y : Emission) : Emission :=
  ⟨x.notices ++ y.notices, x.events ++ y.events⟩

instance : Append Emission := ⟨append⟩

end Emission

structure Session where
  machine : Machine
  /-- The number of the next subscription. -/
  nextId : Nat
  /-- The live subscriptions, oldest first. -/
  listeners : List Nat
  deriving DecidableEq

namespace Session

def ofMachine (m : Machine) : Session := ⟨m, 0, []⟩

inductive Operation where
  | load (program : Program)
  | feed (values : List Word)
  | stepIn
  | stepBack
  | run (limit : Nat)
  | rewind
  | clear
  | subscribe
  | unsubscribe (id : Nat)
  deriving DecidableEq

inductive Reply where
  | done
  | stepped (step : Step)
  | moved (moved : Bool)
  | finished (outcome : RunOutcome)
  | rewound (steps : Nat)
  | subscribed (id : Nat)
  | unsubscribed (found : Bool)
  deriving DecidableEq

/-- The present view for every listener, in subscription order. -/
def announce (s : Session) : Array Notice :=
  (s.listeners.map fun id => { subscriber := id, view := s.machine.view }).toArray

/-- The session after a change of its machine, with the announcement and the log entries. -/
def changed (s : Session) (m : Machine) (events : List Event) : Session × Emission :=
  let s' := { s with machine := m }
  (s', ⟨s'.announce, events.toArray⟩)

def load (s : Session) (p : Program) : Session × Emission :=
  s.changed (s.machine.load p) [.loading p.size]

def clear (s : Session) : Session × Emission :=
  s.changed s.machine.clear [.clearing s.machine.history.length]

/-- Input that cannot reach the memory yet is only logged. -/
def feed (s : Session) (values : List Word) : Session × Emission :=
  if s.machine.isFresh then s.changed (s.machine.feed values) []
  else ({ s with machine := s.machine.feed values }, ⟨#[], #[.inputDeferred values.length]⟩)

def stepIn (s : Session) : Session × Step × Emission :=
  match s.machine.stepIn with
  | (_, .halted) => (s, .halted, .empty)
  | (m, .replayed r) =>
    let (s', out) := s.changed m [.replayed m.cursor m.counter]
    (s', .replayed r, out)
  | (m, .executed r) =>
    let (s', out) := s.changed m (Event.ofExecution r)
    (s', .executed r, out)

def stepBack (s : Session) : Option (Session × Emission) :=
  match s.machine.stepBack with
  | none => none
  | some m => some (s.changed m [.steppedBack m.cursor m.counter])

/-- Up to `limit` steps forward after `taken` steps that sent out `sent`. -/
def runFrom (taken : Nat) (sent : Emission) : Nat → Session → Session × Nat × Emission
  | 0, s => (s, taken, sent)
  | limit + 1, s =>
    match s.stepIn with
    | (s', .halted, _) => (s', taken, sent)
    | (s', _, out) => runFrom (taken + 1) (sent ++ out) limit s'

def run (s : Session) (limit : Nat) : Session × RunOutcome × Emission :=
  let (s', steps, sent) := runFrom 0 .empty limit s
  let outcome : RunOutcome := { steps, halted := s'.machine.isHalted }
  (s', outcome, sent ++ ⟨#[], #[.runFinished outcome]⟩)

def retreat (sent : Emission) : Nat → Session → Session × Emission
  | 0, s => (s, sent)
  | limit + 1, s =>
    match s.stepBack with
    | none => (s, sent)
    | some (s', out) => retreat (sent ++ out) limit s'

def rewind (s : Session) : Session × Nat × Emission :=
  let (s', sent) := retreat .empty s.machine.cursor s
  (s', s.machine.cursor, sent)

/-- Adds a listener and gives its number, which is never given again. -/
def subscribe (s : Session) : Session × Nat :=
  ({ s with nextId := s.nextId + 1, listeners := s.listeners ++ [s.nextId] }, s.nextId)

/-- Removes a listener, and says whether there was such a one. -/
def unsubscribe (s : Session) (id : Nat) : Session × Bool :=
  ({ s with listeners := s.listeners.filter (· ≠ id) }, s.listeners.contains id)

def perform (s : Session) : Operation → Session × Reply × Emission
  | .load p => let (s', out) := s.load p; (s', .done, out)
  | .feed values => let (s', out) := s.feed values; (s', .done, out)
  | .stepIn => let (s', step, out) := s.stepIn; (s', .stepped step, out)
  | .stepBack =>
    match s.stepBack with
    | none => (s, .moved false, .empty)
    | some (s', out) => (s', .moved true, out)
  | .run limit => let (s', outcome, out) := s.run limit; (s', .finished outcome, out)
  | .rewind => let (s', steps, out) := s.rewind; (s', .rewound steps, out)
  | .clear => let (s', out) := s.clear; (s', .done, out)
  | .subscribe => let (s', id) := s.subscribe; (s', .subscribed id, .empty)
  | .unsubscribe id => let (s', found) := s.unsubscribe id; (s', .unsubscribed found, .empty)

def summary (s : Session) : String :=
  let l := s.machine.layout
  let config := s!"size: {l.size.text}, input: {l.input.text}, output: {l.output.text}"
  let state := s!"statements: {s.machine.program.size.repr}, counter: {s.machine.counter.text}, " ++
    s!"cursor: {s.machine.cursor.repr}, history: {s.machine.history.length.repr}, " ++
    s!"listeners: {s.listeners.length.repr}, .."
  "Executor \x7b config: MemoryConfig \x7b " ++ config ++ " \x7d, " ++ state ++ " \x7d"

end Session

end Retrace
