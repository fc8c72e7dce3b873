import Retrace.Layout
import Retrace.Program
import Retrace.Record

/-!
# The stepping machine

The machine executes a program one statement at a time and keeps a record of every step. Steps can
be taken back and taken again; a recorded step is replayed from its commit and never executed a
second time. The trace is a zipper: the steps behind the machine, latest first, and the steps ahead
of it, next first.

* `Machine` : the state; `Machine.create` : a new machine, or the reason why there is none;
* `Machine.history`, `Machine.cursor` : the whole trace and the position in it;
* `Machine.load`, `Machine.clear` : start over with a program, or with the same one;
* `Machine.feed` : new input, which reaches the memory at once only while nothing is recorded;
* `Machine.stepIn`, `Machine.stepBack`, `Machine.run`, `Machine.rewind` : motion along the trace;
* `Machine.output`, `Machine.outputText` : the output span, as words and as characters;
* `View` : what an onlooker sees of a machine.
-/

namespace Retrace

structure Machine where
  layout : Layout
  memory : Memory
  program : Program
  counter : Word
  /-- The steps that led here, latest first. -/
  past : List Record
  /-- The steps that were taken back, next first. -/
  future : List Record
  /-- The input last given, whether it reached the memory or not. -/
  input : List Word
  deriving DecidableEq

/-- Why there is no machine of a layout. -/
inductive CreateError where
  | refused (reason : LayoutError)
  /-- The layout is accepted, but no memory is that large. No caller gets this as an answer: the whole
  program ends. -/
  | overflow
  deriving DecidableEq, Repr

inductive Step where
  /-- A statement was executed and recorded. -/
  | executed (record : Record)
  /-- A recorded step was applied again. -/
  | replayed (record : Record)
  /-- The counter names no statement. -/
  | halted
  deriving DecidableEq

structure RunOutcome where
  steps : Nat
  halted : Bool
  deriving DecidableEq, Repr

/-- What an onlooker sees: any memory, program, counter and trace with a position. -/
structure View where
  memory : Memory
  program : Program
  counter : Word
  history : List Record
  cursor : Nat
  deriving DecidableEq

namespace View

def isHalted (v : View) : Bool := (v.program.get? v.counter).isNone

def lastStep? (v : View) : Option Record :=
  match v.cursor with
  | 0 => none
  | i + 1 => v.history[i]?

end View

namespace Word

/-- The character a word encodes; the replacement character stands for any other word. -/
def toChar (w : Word) : Char :=
  match w.index? with
  | none => '�'
  | some n => if n.isValidChar then Char.ofNat n else '�'

def ofChar (c : Char) : Word := Int32.ofNat c.toNat

end Word

namespace Machine

/-- A machine with nothing loaded. The layout is taken as it is. -/
def boot (layout : Layout) : Machine :=
  { layout
    memory := .zeros layout.size.toNat
    program := .empty
    counter := 0
    past := []
    future := []
    input := [] }

def create (layout : Layout) : Except CreateError Machine :=
  match layout.validate with
  | .error e => .error (.refused e)
  | .ok _ =>
    -- the check of the layout sets no limit to the size
    match Memory.allocate? layout.size.toNat with
    | none => .error .overflow
    | some memory => .ok { boot layout with memory }

/-! ## Observation -/

def history (m : Machine) : List Record := m.past.reverse ++ m.future

def cursor (m : Machine) : Nat := m.past.length

def isHalted (m : Machine) : Bool := (m.program.get? m.counter).isNone

def lastStep? (m : Machine) : Option Record := m.past.head?

def view (m : Machine) : View :=
  { memory := m.memory
    program := m.program
    counter := m.counter
    history := m.history
    cursor := m.cursor }

/-- The cells of the output span; none at all if the span does not fit. -/
def output (m : Machine) : List Word :=
  let span := m.layout.output
  if span.start ≤ span.stop ∧ span.stop.toNat ≤ m.memory.size then
    (m.memory.cells.extract span.start.toNat span.stop.toNat).toList
  else []

def outputText (m : Machine) : String :=
  String.ofList (m.output.map Word.toChar)

/-! ## Input and reset -/

/-- The first `n` values, filled up with zeros. -/
def fit (n : Nat) (values : List Word) : List Word :=
  values.take n ++ List.replicate (n - values.length) 0

def inputLoaded (m : Machine) : Memory :=
  m.memory.load m.layout.input.start.toNat (fit m.layout.input.length m.input)

/-- Everything but layout, program and pending input as at the start. -/
def reset (m : Machine) : Machine :=
  let blank := { m with memory := m.memory.cleared, counter := 0, past := [], future := [] }
  { blank with memory := blank.inputLoaded }

def load (m : Machine) (p : Program) : Machine :=
  { m with program := p }.reset

def clear (m : Machine) : Machine := m.reset

def isFresh (m : Machine) : Bool := m.past.isEmpty && m.future.isEmpty

/-- Sets the pending input. It reaches the memory only while nothing is recorded, so that a
recorded trace stays true to the memory it started from. -/
def feed (m : Machine) (values : List Word) : Machine :=
  let given := { m with input := values }
  if m.isFresh then { given with memory := given.inputLoaded } else given

def codes (text : String) : List Word := text.toList.map Word.ofChar

/-! ## Motion -/

/-- One step forward: the next recorded step again, or else the statement at the counter. -/
def stepIn (m : Machine) : Machine × Step :=
  match m.future with
  | r :: rest =>
    ({ m with
        memory := m.memory.redo r.commit
        counter := r.after
        past := r :: m.past
        future := rest }, .replayed r)
  | [] =>
    match m.program.get? m.counter with
    | none => (m, .halted)
    | some s =>
      let (memory, r) := Record.ofStatement m.memory m.counter s
      ({ m with memory, counter := r.after, past := r :: m.past }, .executed r)

def stepBack (m : Machine) : Option Machine :=
  match m.past with
  | [] => none
  | r :: rest =>
    some { m with
      memory := m.memory.undo r.commit
      counter := r.before
      past := rest
      future := r :: m.future }

/-- Up to `limit` steps forward after `taken` steps, with the number of steps taken in all. -/
def runFrom (taken : Nat) : Nat → Machine → Machine × Nat
  | 0, m => (m, taken)
  | limit + 1, m =>
    match m.stepIn with
    | (m', .halted) => (m', taken)
    | (m', _) => runFrom (taken + 1) limit m'

def run (limit : Nat) (m : Machine) : Machine × RunOutcome :=
  let (m', steps) := runFrom 0 limit m
  (m', { steps, halted := m'.isHalted })

def retreat : Nat → Machine → Machine
  | 0, m => m
  | limit + 1, m =>
    match m.stepBack with
    | none => m
    | some m' => retreat limit m'

def rewind (m : Machine) : Machine × Nat :=
  (retreat m.cursor m, m.cursor)

end Machine

end Retrace
