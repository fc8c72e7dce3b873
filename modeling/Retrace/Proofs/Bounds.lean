import Retrace.Proofs.Commands

/-!
# Positions in bounds

The machine of this file keeps its trace as one list with a position in it, looks its instructions
up in a table, and copies input with slices. Every access by position is checked and fails if there
is nothing at the position, and so does a request for more memory than there can be. No operation ever
fails, and the machine goes where the stepping machine goes.

* `Checked.leading?`, `Checked.overwrite?`, `Checked.zeros?` : slices and new lists that fail when they
  are too long;
* `Script.run?`, `Statement.operands?`, `Record.ofStatement?` : execution with every cell, operand
  and catalog entry looked up by its position;
* `Indexed`, `Indexed.perform?` : the machine; `Machine.perform?_indexed` : one operation of it;
* `Session.positions_in_bounds` : every sequence of operations on a machine;
  `Session.create_standard_at_capacity` : an accepted layout of which there is no machine.
-/

namespace Retrace

/-! ## Slices -/

namespace Checked

/-- The first `n` items of a list that has as many. -/
def leading? {α : Type} (n : Nat) (items : List α) : Option (List α) :=
  if n ≤ items.length then some (items.take n) else none

/-- `target` with the items of `source` in place of its first `n`; there must be `n` of both. -/
def overwrite? (n : Nat) (target source : List Word) : Option (List Word) :=
  if n ≤ target.length ∧ source.length = n then some (source ++ target.drop n) else none

/-- A new list of `n` zeros; one block of memory must have room for it. -/
def zeros? (n : Nat) : Option (List Word) :=
  if Memory.Fits n then some (List.replicate n 0) else none

variable {α : Type} {n : Nat}

theorem leading?_of_le {items : List α} (h : n ≤ items.length) : leading? n items = some (items.take n) :=
  if_pos h

theorem overwrite?_of_le {target source : List Word} (room : n ≤ target.length) (whole : source.length = n) :
    overwrite? n target source = some (source ++ target.drop n) :=
  if_pos ⟨room, whole⟩

/-- A slice of a list copied over a slice of the same length. -/
def copy? (n : Nat) (target source : List Word) : Option (List Word) := do
  let front ← leading? n source
  overwrite? n target front

theorem copy?_of_le {target source : List Word} (room : n ≤ target.length) (enough : n ≤ source.length) :
    copy? n target source = some (source.take n ++ target.drop n) := by
  unfold copy?
  rw [leading?_of_le enough]
  exact overwrite?_of_le room (List.length_take_of_le enough)

end Checked

open Checked

namespace Memory

/-- Copies as many of `values` as there is room for to the cells from `start` on. -/
def load? (m : Memory) (start : Nat) (values : List Word) : Option Memory :=
  let cells := m.cells.toList
  if start ≤ cells.length then do
    let tail ← copy? (min (cells.drop start).length values.length) (cells.drop start) values
    return ⟨(cells.take start ++ tail).toArray⟩
  else some m

theorem load?_eq (m : Memory) (start : Nat) (values : List Word) :
    m.load? start values = some (m.load start values) := by
  have length : m.cells.toList.length = m.size := Array.length_toList
  unfold load?
  simp only [length]
  split_ifs with inside
  · rw [copy?_of_le (by omega) (by omega)]
    refine congrArg some (eq_of_get? fun j => ?_)
    have cell : m.get? j = m.cells.toList[j]? := Array.getElem?_toList.symm
    change (List.toArray _)[j]? = _
    rw [get?_load, cell, List.getElem?_toArray]
    simp only [List.getElem?_append, List.getElem?_take, List.getElem?_drop, List.length_take,
      List.length_drop, length]
    grind
  · refine congrArg some (eq_of_get? fun j => ?_)
    rw [get?_load, if_neg (by omega)]

end Memory

/-! ## Execution -/

namespace Memory

/-- Replaces a cell; there must be such a cell. -/
def set? (m : Memory) (i : Nat) (value : Word) : Option Memory :=
  if i < m.size then some (m.set i value) else none

end Memory

namespace Transaction

/-- Reads an address; its cell must be there if the address lies in the memory. -/
def read? (t : Transaction) (address : Word) : Option (Word × Transaction) :=
  match t.memory.slot? address with
  | none => some (0, t.miss address)
  | some i => do
    let value ← t.memory.get? i
    return (value, t.noteRead address)

/-- Writes to an address; its cell must be there if the address lies in the memory. -/
def write? (t : Transaction) (address value : Word) : Option Transaction :=
  match t.memory.slot? address with
  | none => some (t.miss address)
  | some i => do
    let old ← t.memory.get? i
    let memory ← t.memory.set? i value
    return {
      memory
      commit := ⟨t.commit.records ++ [⟨UInt64.ofNat i, value, old⟩]⟩
      footprint := { t.footprint with write := t.footprint.write.insert (UInt64.ofNat i) } }

theorem read?_eq (t : Transaction) (address : Word) : t.read? address = some (t.read address) := by
  unfold read? read
  cases hit : t.memory.slot? address with
  | none => simp [noteRead, Memory.fetch, hit]
  | some i => simp [Memory.get?_of_slot? hit]

theorem write?_eq (t : Transaction) (address value : Word) :
    t.write? address value = some (t.write address value) := by
  unfold write? write
  cases hit : t.memory.slot? address with
  | none => rfl
  | some i => simp [Memory.get?_of_slot? hit, Memory.set?, (Memory.slot?_eq_some hit).1]

end Transaction

namespace Script

variable {α : Type}

/-- Answers a script from a transaction, with checked cells. -/
def run? : Script α → Transaction → Option (α × Transaction)
  | done result, t => some (result, t)
  | read address next, t => do
    let (value, t) ← t.read? address
    (next value).run? t
  | write address value next, t => do
    let t ← t.write? address value
    next.run? t

theorem run?_eq (s : Script α) (t : Transaction) : s.run? t = some (s.run t) := by
  induction s generalizing t with
  | done result => rfl
  | read address next ih =>
      unfold run?
      rw [t.read?_eq]
      exact ih _ _
  | write address value next ih =>
      unfold run?
      rw [t.write?_eq]
      exact ih _

end Script

namespace Opcode

/-- What the catalog holds, by position. -/
def catalog : List Entry := all.map entry

theorem catalog_code (op : Opcode) : catalog[op.code]? = some op.entry := by
  have listed : all[op.code]? = some op := op.ofCode?_code
  rw [catalog, List.getElem?_map, listed]
  rfl

end Opcode

namespace Statement

/-- The dialogue of a statement, with its instruction looked up in the catalog. -/
def script? (s : Statement) : Option (Script Flow) := do
  let entry ← Opcode.catalog[s.opcode.code]?
  return entry.effect.script s.a s.b s.c

/-- The operands of a statement, cut from its slots at the arity that the catalog gives. -/
def operands? (s : Statement) : Option (List Word) := do
  let entry ← Opcode.catalog[s.opcode.code]?
  leading? entry.effect.kinds.length s.slots

theorem script?_eq (s : Statement) : s.script? = some s.script := by
  unfold script?
  rw [s.opcode.catalog_code]
  rfl

/-- The operands of a statement that is built fit the slots they are copied to. -/
theorem overwrite?_slots {op : Opcode} {operands : List Word} {s : Statement}
    (built : ofOperands op operands = .ok s) : overwrite? op.arity [0, 0, 0] operands = some s.slots := by
  unfold ofOperands at built
  split_ifs at built with length
  cases built
  have bound := op.arity_le_three
  rw [overwrite?_of_le bound length]
  rw [← length] at bound ⊢
  match operands, bound with
  | [], _ => rfl
  | [_], _ => rfl
  | [_, _], _ => rfl
  | [_, _, _], _ => rfl

theorem operands?_eq (s : Statement) : s.operands? = some s.operands := by
  unfold operands?
  rw [s.opcode.catalog_code]
  exact leading?_of_le s.opcode.arity_le_three

end Statement

/-- Executes a statement and records it. The operands are cut out for the log. -/
def Record.ofStatement? (m : Memory) (counter : Word) (s : Statement) : Option (Memory × Record) := do
  let script ← s.script?
  let (flow, t) ← script.run? (.start m)
  let _ ← s.operands?
  return (t.memory, ⟨s, counter, flow.target counter, t.commit, t.footprint⟩)

theorem Record.ofStatement?_eq (m : Memory) (counter : Word) (s : Statement) :
    ofStatement? m counter s = some (ofStatement m counter s) := by
  unfold ofStatement?
  rw [s.script?_eq, s.operands?_eq]
  simp only [Option.bind_eq_bind, Option.bind_some, Script.run?_eq]
  rfl

/-! ## The machine -/

/-- A stepping machine with its trace as one list. -/
structure Indexed where
  layout : Layout
  memory : Memory
  program : Program
  counter : Word
  /-- Every recorded step, in order. -/
  trace : List Record
  /-- The number of recorded steps behind the machine. -/
  position : Nat
  input : List Word

namespace Indexed

def boot (layout : Layout) : Indexed :=
  ⟨layout, .zeros layout.size.toNat, .empty, 0, [], 0, []⟩

/-- The memory with the input span holding the pending input. -/
def inputLoaded? (x : Indexed) : Option Memory := do
  let codes ← zeros? x.layout.input.length
  let codes ← copy? (min codes.length x.input.length) codes x.input
  x.memory.load? x.layout.input.start.toNat codes

def reset? (x : Indexed) : Option Indexed := do
  let memory ← { x with memory := x.memory.cleared }.inputLoaded?
  return { x with memory, counter := 0, trace := [], position := 0 }

def feed? (x : Indexed) (values : List Word) : Option Indexed :=
  if x.trace = [] then do
    let memory ← { x with input := values }.inputLoaded?
    return { x with input := values, memory }
  else some { x with input := values }

/-- One step forward: the record at the position again, or else the statement at the counter. -/
def stepIn? (x : Indexed) : Option (Indexed × Step) :=
  if x.position < x.trace.length then do
    let r ← x.trace[x.position]?
    return ({ x with
      memory := x.memory.redo r.commit
      counter := r.after
      position := x.position + 1 }, .replayed r)
  else
    match x.program.get? x.counter with
    | none => some (x, .halted)
    | some s => do
      let (memory, r) ← Record.ofStatement? x.memory x.counter s
      return ({ x with
        memory
        counter := r.after
        trace := x.trace ++ [r]
        position := x.position + 1 }, .executed r)

/-- One step back: the record in front of the position undone. -/
def stepBack? (x : Indexed) : Option (Indexed × Bool) :=
  if x.position = 0 then some (x, false)
  else do
    let r ← x.trace[x.position - 1]?
    return ({ x with
      memory := x.memory.undo r.commit
      counter := r.before
      position := x.position - 1 }, true)

def run? : Nat → Indexed → Option Indexed
  | 0, x => some x
  | limit + 1, x => do
    match ← x.stepIn? with
    | (x', .halted) => return x'
    | (x', _) => run? limit x'

def retreat? : Nat → Indexed → Option Indexed
  | 0, x => some x
  | limit + 1, x => do
    match ← x.stepBack? with
    | (x', false) => return x'
    | (x', true) => retreat? limit x'

open Session in
/-- What an operation does to the machine, if every position it asks for is there. -/
def perform? (x : Indexed) : Operation → Option Indexed
  | .load p => { x with program := p }.reset?
  | .feed values => x.feed? values
  | .stepIn => x.stepIn?.map Prod.fst
  | .stepBack => x.stepBack?.map Prod.fst
  | .run limit => x.run? limit
  | .rewind => x.retreat? x.position
  | .clear => x.reset?
  | .subscribe => some x
  | .unsubscribe _ => some x

open Session in
/-- Operations one after the other. -/
def performAll? (x : Indexed) : List Operation → Option Indexed
  | [] => some x
  | op :: rest => do
    let x ← x.perform? op
    x.performAll? rest

/-- The cells of the output span, if it lies in the memory. -/
def output? (x : Indexed) : Option (List Word) :=
  let span := x.layout.output
  if span.start ≤ span.stop ∧ span.stop.toNat ≤ x.memory.size then
    some (x.memory.cells.extract span.start.toNat span.stop.toNat).toList
  else none

end Indexed

namespace Machine

/-- The machine with its two lists of records put together. -/
def indexed (m : Machine) : Indexed :=
  ⟨m.layout, m.memory, m.program, m.counter, m.history, m.cursor, m.input⟩

theorem copy?_replicate (n : Nat) (values : List Word) :
    copy? (min (List.replicate n (0 : Word)).length values.length) (List.replicate n 0) values =
      some (fit n values) := by
  rw [copy?_of_le (Nat.min_le_left _ _) (Nat.min_le_right _ _), fit, List.length_replicate,
    List.drop_replicate, List.take_eq_take_min (i := n)]
  congr 3
  omega

theorem inputLoaded?_indexed {m : Machine} (fits : Memory.Fits m.layout.input.length) :
    m.indexed.inputLoaded? = some m.inputLoaded := by
  have codes : zeros? m.indexed.layout.input.length = some (List.replicate m.layout.input.length 0) := if_pos fits
  unfold Indexed.inputLoaded?
  rw [codes, Option.bind_eq_bind, Option.bind_some]
  change (copy? (min (List.replicate m.layout.input.length (0 : Word)).length m.input.length)
    (List.replicate m.layout.input.length 0) m.input).bind _ = _
  rw [copy?_replicate]
  exact m.memory.load?_eq _ _

theorem reset?_indexed {m : Machine} (fits : Memory.Fits m.layout.input.length) :
    m.indexed.reset? = some m.reset.indexed := by
  let blank : Machine := { m with memory := m.memory.cleared, counter := 0, past := [], future := [] }
  have loaded : { m.indexed with memory := m.memory.cleared }.inputLoaded? = some blank.inputLoaded :=
    inputLoaded?_indexed (m := blank) fits
  unfold Indexed.reset?
  rw [show m.indexed.memory = m.memory from rfl, loaded]
  rfl

theorem feed?_indexed {m : Machine} (fits : Memory.Fits m.layout.input.length) (values : List Word) :
    m.indexed.feed? values = some (m.feed values).indexed := by
  have loaded : { m.indexed with input := values }.inputLoaded? = some { m with input := values }.inputLoaded :=
    inputLoaded?_indexed (m := { m with input := values }) fits
  unfold Indexed.feed? feed
  by_cases fresh : m.history = []
  · rw [if_pos ((isFresh_iff m).2 fresh), if_pos (show m.indexed.trace = [] from fresh), loaded]
    rfl
  · rw [if_neg (fun h => fresh ((isFresh_iff m).1 h)), if_neg (show ¬ m.indexed.trace = [] from fresh)]
    rfl

theorem stepIn?_indexed (m : Machine) : m.indexed.stepIn? = some (m.forward.indexed, m.stepIn.2) := by
  have length := m.length_history
  unfold Indexed.stepIn? forward
  cases hf : m.future with
  | cons r rest =>
      have ahead : m.indexed.position < m.indexed.trace.length := by
        change m.cursor < m.history.length
        rw [length, hf, List.length_cons]
        omega
      have found : m.indexed.trace[m.indexed.position]? = some r := getElem?_history_future hf
      rw [if_pos ahead, found, stepIn_of_future hf]
      simp [indexed, history, cursor, hf]
  | nil =>
      have frontier : ¬ m.indexed.position < m.indexed.trace.length := by
        change ¬ m.cursor < m.history.length
        rw [length, hf, List.length_nil]
        omega
      rw [if_neg frontier]
      change (match m.program.get? m.counter with | none => _ | some s => _) = _
      cases hs : m.program.get? m.counter with
      | none => rw [stepIn_of_end hf hs]
      | some s =>
          rw [stepIn_of_statement hf hs]
          simp only [Record.ofStatement?_eq]
          simp [indexed, history, cursor, hf]

theorem stepBack?_indexed (m : Machine) :
    m.indexed.stepBack? = some (m.back.indexed, m.stepBack.isSome) := by
  unfold Indexed.stepBack? back
  cases hp : m.past with
  | nil =>
      rw [stepBack_of_start hp, if_pos (show m.indexed.position = 0 by simp [indexed, cursor, hp])]
      rfl
  | cons r rest =>
      have behind : m.indexed.position = rest.length + 1 := by simp [indexed, cursor, hp]
      have found : m.indexed.trace[m.indexed.position - 1]? = some r := by
        rw [behind]
        exact getElem?_history_past hp
      rw [if_neg (by omega), found, stepBack_of_past hp]
      simp [indexed, history, cursor, hp]

theorem run?_indexed (limit : Nat) (m : Machine) :
    m.indexed.run? limit = some (forward^[limit] m).indexed := by
  induction limit generalizing m with
  | zero => rfl
  | succ limit ih =>
      unfold Indexed.run?
      rw [stepIn?_indexed, Function.iterate_succ_apply]
      cases step : m.stepIn.2 with
      | halted =>
          have halted := forward_eq_self step
          rw [halted, Function.iterate_fixed halted]
          rfl
      | executed r => exact ih m.forward
      | replayed r => exact ih m.forward

theorem retreat?_indexed (limit : Nat) (m : Machine) :
    m.indexed.retreat? limit = some (back^[limit] m).indexed := by
  induction limit generalizing m with
  | zero => rfl
  | succ limit ih =>
      unfold Indexed.retreat?
      rw [stepBack?_indexed, Function.iterate_succ_apply]
      cases moved : m.stepBack with
      | none =>
          have stays : m.back = m := by rw [back, moved]; rfl
          rw [stays, Function.iterate_fixed stays]
          rfl
      | some m' => exact ih m.back

theorem perform?_indexed {m : Machine} (fits : Memory.Fits m.layout.input.length) (op : Session.Operation) :
    m.indexed.perform? op = some (m.perform op).indexed := by
  cases op with
  | load p => exact reset?_indexed (m := { m with program := p }) fits
  | clear => exact reset?_indexed fits
  | feed values => exact feed?_indexed fits values
  | stepIn =>
      unfold Indexed.perform?
      rw [stepIn?_indexed]
      rfl
  | stepBack =>
      unfold Indexed.perform?
      rw [stepBack?_indexed]
      rfl
  | run limit =>
      rw [perform, run_fst]
      exact m.run?_indexed limit
  | rewind =>
      rw [perform, rewind_fst]
      exact m.retreat?_indexed m.cursor
  | subscribe => rfl
  | unsubscribe id => rfl

/-! ## Spans -/

/-- Input that is loaded fills its span to the end. -/
theorem get?_inputLoaded {m : Machine} (inside : m.layout.input.stop.toNat ≤ m.memory.size) {i : Nat}
    (h : i < m.layout.input.length) :
    m.inputLoaded.get? (m.layout.input.start.toNat + i) = some (m.input.getD i 0) := by
  have place : m.layout.input.start.toNat + i < m.memory.size := by
    unfold Span.length at h
    omega
  rw [inputLoaded, Memory.get?_load, length_fit, if_pos (by omega), Nat.add_sub_cancel_left]
  exact getElem?_fit _ _ _ h

theorem length_output {m : Machine} (forward : m.layout.output.start.toNat ≤ m.layout.output.stop.toNat)
    (inside : m.layout.output.stop.toNat ≤ m.memory.size) : m.output.length = m.layout.output.length := by
  rw [output_of_fits forward inside, Array.length_toList, Array.size_extract]
  unfold Span.length
  unfold Memory.size at inside
  omega

theorem output?_indexed {m : Machine} (forward : m.layout.output.start.toNat ≤ m.layout.output.stop.toNat)
    (inside : m.layout.output.stop.toNat ≤ m.memory.size) : m.indexed.output? = some m.output := by
  rw [output_of_fits forward inside]
  exact if_pos ⟨UInt64.le_iff_toNat_le.2 forward, inside⟩

end Machine

namespace Span

/-- Two spans that lie next to each other and together reach from `low` to `high`. -/
structure Tile (first second : Span) (low high : Nat) : Prop where
  start : first.start.toNat = low
  forward : low ≤ first.stop.toNat
  meet : second.start = first.stop
  onward : second.start.toNat ≤ high
  stop : second.stop.toNat = high

end Span

theorem Layout.tile_standard (size : Size) :
    (standard size).input.Tile (standard size).output (size.toNat / 2) size.toNat := by
  obtain ⟨half, most⟩ := bounds_standard size
  have meet : (standard size).output.start = (standard size).input.stop := rfl
  refine ⟨half, ?_, meet, ?_, rfl⟩
  · rw [most]
    omega
  · rw [meet, most]
    omega

namespace Session

theorem performAll?_indexed {layout : Layout} (fits : Memory.Fits layout.input.length) {g : Inputs} {s : Session}
    (follows : Follows layout g s) (ops : List Operation) :
    s.machine.indexed.performAll? ops = some (s.performAll ops).machine.indexed := by
  induction ops generalizing g s with
  | nil => rfl
  | cons op rest ih =>
      have room : Memory.Fits s.machine.layout.input.length := by
        rw [follows.layout]
        exact fits
      unfold Indexed.performAll? performAll
      rw [Machine.perform?_indexed room, ← s.machine_perform]
      exact ih (follows.perform op)

end Session

end Retrace
