import Retrace.Cli.Response
import Retrace.Proofs.Halting
import Retrace.Proofs.Input
import Retrace.Proofs.JsonForms
import Retrace.Proofs.StepLine

/-!
# Commands that execute a program

The three commands that execute a program do it once and report it in three ways. Their exit codes
say what came of it.

* `FileContent.Holds` : a file that is the UTF-8 form of a text that compiles;
* `MachineOptions.requested`, `MachineOptions.values` : the layout and the input asked for;
  `MachineOptions.execute_of_fits` : the machine that has run on them;
* `Interpreter.Execution` : the records of a program's first steps, and where they lead;
* `Task.Printed` : what the commands print of an execution;
* `Task.commands_agree` : exit codes, messages and printed text of the commands;
  `Task.run_aborted_at_capacity` : a size of memory that is accepted and cannot be had.
-/

namespace Retrace

open Text

/-! ## Files -/

theorem fromUTF8?_eq_some_iff (bytes : ByteArray) (text : String) :
    String.fromUTF8? bytes = some text ↔ bytes = text.toUTF8 := by
  unfold String.fromUTF8?
  constructor
  · intro h
    split at h
    · next valid =>
      cases h
      rfl
    · cases h
  · rintro rfl
    exact dif_pos text.isValidUTF8

namespace FileContent

/-- The file can be read, and its bytes are the UTF-8 form of a text that compiles to the program. -/
def Holds (content : FileContent) (p : Program) : Prop :=
  ∃ text : String, content = .ok text.toUTF8 ∧ Source.compile text = .ok p

theorem text_eq_ok_iff (content : FileContent) (text : String) :
    FileContent.text content = .ok text ↔ content = .ok text.toUTF8 := by
  unfold FileContent.text
  cases content with
  | error e => simp
  | ok bytes =>
      rw [Except.ok.injEq, ← fromUTF8?_eq_some_iff]
      simp only
      cases String.fromUTF8? bytes <;> simp

end FileContent

namespace Task

theorem program_of_holds {content : FileContent} {p : Program} (h : FileContent.Holds content p) (file : String) :
    program file content = .ok p := by
  obtain ⟨text, bytes, compiles⟩ := h
  unfold program
  rw [(FileContent.text_eq_ok_iff content text).2 bytes]
  simp only [compiles]

theorem program_of_not_holds {content : FileContent} (h : ¬ ∃ p, FileContent.Holds content p) (file : String) :
    ∃ message, program file content = .error (.failure message) := by
  unfold program
  cases read : FileContent.text content with
  | error e => exact ⟨_, rfl⟩
  | ok text =>
      simp only
      cases compiles : Source.compile text with
      | error e => exact ⟨_, rfl⟩
      | ok p => exact absurd ⟨p, text, (FileContent.text_eq_ok_iff content text).1 read, compiles⟩ h

end Task

/-! ## Options -/

theorem Layout.bounds_standard (size : Size) :
    (standard size).input.start.toNat = size.toNat / 2 ∧
      (standard size).input.stop.toNat = size.toNat - size.toNat / 4 := by
  have quarter : (size / 4).toNat = size.toNat / 4 := UInt64.toNat_div size 4
  have less : size / 4 ≤ size := by
    rw [UInt64.le_iff_toNat_le, quarter]
    omega
  refine ⟨UInt64.toNat_div size 2, ?_⟩
  change (size - size / 4).toNat = _
  rw [UInt64.toNat_sub_of_le _ _ less, quarter]

theorem Layout.validate_standard {size : Size} (h : size ≠ 0) : (standard size).validate = .ok () := by
  obtain ⟨half, most⟩ := bounds_standard size
  have meet : (standard size).output.start.toNat = size.toNat - size.toNat / 4 := most
  rw [validate_eq_ok_iff, half, most, meet]
  refine ⟨h, ?_, ?_⟩
  · change _ ∧ _ ≤ size.toNat
    omega
  · change _ ≤ size.toNat ∧ size.toNat ≤ size.toNat
    omega

namespace MachineOptions

/-- The standard layout of the size asked for, with the spans asked for in place of its own. -/
def requested (o : MachineOptions) : Layout :=
  { size := o.memorySize
    input := o.inputRange.getD (Layout.standard o.memorySize).input
    output := o.outputRange.getD (Layout.standard o.memorySize).output }

/-- The input asked for, as words. -/
def values (o : MachineOptions) : List Word :=
  (o.input.map Machine.codes).getD []

theorem layout_of_size {o : MachineOptions} (h : o.memorySize ≠ 0) : o.layout = o.requested.validated := by
  unfold layout Layout.validated
  rw [Layout.validate_standard h]
  rfl

theorem layout_of_valid {o : MachineOptions} (valid : o.requested.validate = .ok ()) :
    o.layout = .ok o.requested := by
  have size : o.memorySize ≠ 0 := ((Layout.validate_eq_ok_iff o.requested).1 valid).1
  rw [layout_of_size size, Layout.validated, valid]
  rfl

/-- The standard layout is refused only for its size, and then so is the one asked for. -/
theorem layout_of_invalid {o : MachineOptions} (invalid : o.requested.validate ≠ .ok ()) :
    ∃ e, o.layout = .error e := by
  by_cases size : o.memorySize = 0
  · refine ⟨.emptyMemory, ?_⟩
    unfold layout
    rw [size]
    rfl
  · rw [layout_of_size size, Layout.validated]
    cases checked : o.requested.validate with
    | error e => exact ⟨e, rfl⟩
    | ok u => exact absurd checked invalid

theorem execute_of_fits {o : MachineOptions} (valid : o.requested.validate = .ok ())
    (fits : Memory.Fits o.memorySize.toNat) (p : Program) :
    o.execute p = .ok ((Machine.started o.requested p o.values).run o.maxSteps.toNat) := by
  have size : (Machine.boot o.requested).memory.size = o.requested.size.toNat := Memory.size_zeros _
  have loaded : (Machine.boot o.requested).load p = Machine.started o.requested p [] :=
    Machine.reset_eq (m := { Machine.boot o.requested with program := p }) size
  have fed (values : List Word) :
      ((Machine.boot o.requested).load p).feed values = Machine.started o.requested p values :=
    Machine.load_feed size p values
  unfold execute values
  rw [layout_of_valid valid]
  simp only [bind, Except.bind, Except.mapError, Machine.create_of_fits valid fits]
  cases o.input with
  | none => simp only [loaded]; rfl
  | some text => simp only [fed]; rfl

theorem execute_of_not_fits {o : MachineOptions} (valid : o.requested.validate = .ok ())
    (tooLarge : ¬ Memory.Fits o.memorySize.toNat) (p : Program) : o.execute p = .error .overflow := by
  unfold execute
  rw [layout_of_valid valid]
  simp only [bind, Except.bind, Except.mapError, Machine.create_of_not_fits valid tooLarge]

theorem execute_of_invalid {o : MachineOptions} (invalid : o.requested.validate ≠ .ok ()) :
    ∃ e, ∀ p, o.execute p = .error (.refused e) := by
  obtain ⟨e, refused⟩ := layout_of_invalid invalid
  refine ⟨e, fun p => ?_⟩
  unfold execute
  rw [refused]
  rfl

end MachineOptions

/-! ## Executions -/

namespace Interpreter

/-- The records of a program's first steps, at most `limit` and fewer only if it halts, and the state
they lead to. -/
structure Execution (p : Program) (start : Interpreter) (limit : Nat) (rs : List Record) (last : Interpreter) :
    Prop where
  bound : rs.length ≤ limit
  state : steps p rs.length start = some last
  halts : rs.length < limit → p.get? last.counter = none
  record : ∀ i r, rs[i]? = some r → ∃ x, steps p i start = some x ∧ x.record? p = some r

theorem steps_eq_none_of_le {p : Program} {k n : Nat} {x : Interpreter} (h : steps p k x = none) (le : k ≤ n) :
    steps p n x = none := by
  induction le with
  | refl => exact h
  | step _ ih => rw [steps, ih, Option.bind_none]

namespace Execution

variable {p : Program} {start last : Interpreter} {limit : Nat} {rs : List Record}

/-- The records form a chain: each step starts where the one before it ended. -/
theorem linked (h : Execution p start limit rs last) {i : Nat} {r r' : Record} (hr : rs[i]? = some r)
    (hr' : rs[i + 1]? = some r') : r.after = r'.before := by
  obtain ⟨x, hx, record⟩ := h.record i r hr
  obtain ⟨y, hy, record'⟩ := h.record (i + 1) r' hr'
  obtain ⟨-, z, step, after, -⟩ := step_of_record? record
  rw [steps_succ hx, step] at hy
  cases hy
  rw [← after]
  exact (step_of_record? record').1.symm

theorem first (h : Execution p start limit rs last) {r : Record} (hr : rs[0]? = some r) :
    r.before = start.counter := by
  obtain ⟨x, hx, record⟩ := h.record 0 r hr
  cases hx
  exact (step_of_record? record).1

theorem length_of_running (h : Execution p start limit rs last) (running : p.get? last.counter ≠ none) :
    rs.length = limit := by
  by_contra short
  exact running (h.halts (Nat.lt_of_le_of_ne h.bound short))

/-- The last state names a statement exactly if the program has not halted after `limit` steps. -/
theorem running_iff (h : Execution p start limit rs last) :
    p.get? last.counter ≠ none ↔ ∃ x, steps p limit start = some x ∧ p.get? x.counter ≠ none := by
  constructor
  · intro running
    exact ⟨last, h.length_of_running running ▸ h.state, running⟩
  · rintro ⟨x, hx, running⟩
    by_cases short : rs.length < limit
    · -- the program halts on the way, so there is no state after `limit` steps
      have stuck : last.step p = none := by
        unfold step
        rw [h.halts short]
      have none := steps_eq_none_of_le ((steps_succ h.state).trans stuck) short
      rw [none] at hx
      cases hx
    · have all : rs.length = limit := Nat.le_antisymm h.bound (Nat.le_of_not_lt short)
      have state := h.state
      rw [all, hx] at state
      cases state
      exact running

end Execution

end Interpreter

/-- What a machine records in a run from the start is the execution of its program. -/
theorem Machine.execution_run (l : Layout) (p : Program) (values : List Word) (n : Nat) :
    let m := (Machine.forward^[n] (started l p values))
    Interpreter.Execution p (l.interpreter values) n m.history ⟨m.memory, m.counter⟩ ∧
      m.history.length = moves n (started l p values) := by
  intro m
  have traces : m.Traces values := (traces_started l p values).iterate_forward n
  have kept : Kept (started l p values) m := kept_iterate_forward n _
  have program : m.program = p := kept.program
  have layout : m.layout = l := kept.layout
  have ahead : m.future = [] := future_iterate_forward rfl n
  have cursor : m.cursor = moves n (started l p values) := by
    have := cursor_iterate_forward n (started l p values)
    rwa [show (started l p values).cursor = 0 from rfl, Nat.zero_add] at this
  have length : m.history.length = m.cursor := by rw [length_history, ahead, List.length_nil, Nat.add_zero]
  refine ⟨⟨?_, ?_, ?_, ?_⟩, length.trans cursor⟩
  · rw [length, cursor]
    exact moves_le n _
  · have state := traces.state
    rw [program, layout] at state
    rw [length, state]
  · intro short
    rw [length, cursor] at short
    have stops := halted_of_moves_lt short
    rw [iterate_moves] at stops
    have halted := traces.isHalted_iff.2 stops
    rw [isHalted, Option.isNone_iff_eq_none, program] at halted
    exact halted
  · intro i r hr
    have trace := traces.trace i r hr
    rwa [program, layout] at trace

theorem Machine.isHalted_run (l : Layout) (p : Program) (values : List Word) (n : Nat) :
    let m := forward^[n] (started l p values)
    m.isHalted = (p.get? m.counter).isNone := by
  intro m
  have program : m.program = p := (kept_iterate_forward n _).program
  rw [isHalted, program]

/-! ## Printed text -/

namespace Text

theorem toList_dropTrailingNulls (s : String) :
    ∃ nulls, s.toList = (dropTrailingNulls s).toList ++ List.replicate nulls '\x00' := by
  have parts : s.toList.reverse.takeWhile (· = '\x00') ++ s.toList.reverse.dropWhile (· = '\x00') =
      s.toList.reverse := List.takeWhile_append_dropWhile
  have nulls : s.toList.reverse.takeWhile (· = '\x00') =
      List.replicate (s.toList.reverse.takeWhile (· = '\x00')).length '\x00' := by
    apply List.eq_replicate_of_mem
    intro c hc
    simpa using List.mem_takeWhile_imp hc
  refine ⟨(s.toList.reverse.takeWhile (· = '\x00')).length, ?_⟩
  rw [dropTrailingNulls, String.toList_ofList, ← List.reverse_replicate, ← nulls, ← List.reverse_append, parts,
    List.reverse_reverse]

theorem getLast?_dropTrailingNulls (s : String) : (dropTrailingNulls s).toList.getLast? ≠ some '\x00' := by
  rw [dropTrailingNulls, String.toList_ofList, List.getLast?_reverse]
  intro null
  have stops := List.head?_dropWhile_not (fun c => decide (c = '\x00')) s.toList.reverse
  rw [null] at stops
  exact absurd stops (by decide)

end Text

namespace Task

/-- What the commands print of an execution: `out` is the output span as characters, less the null
characters at its end, each of `lines` tells of one step, and the JSON text is that of one value only. -/
structure Printed (l : Layout) (rs : List Record) (last : Interpreter) (halted : Bool) (lines : List String)
    (out run trace json : String) : Prop where
  output : ∃ nulls, (last.memory.cells.extract l.output.start.toNat l.output.stop.toNat).toList.map Word.toChar =
    out.toList ++ List.replicate nulls '\x00'
  trimmed : out.toList.getLast? ≠ some '\x00'
  count : lines.length = rs.length
  line : ∀ (i : Nat) (r : Record), rs[i]? = some r → lines[i]? = some (r.line i) ∧ '\n' ∉ (r.line i).toList ∧
    ∃ rest, words (r.line i).toList =
      i.repr.toList :: r.before.text.toList :: r.arrow.toList :: r.after.text.toList :: rest
  run : run = out ++ "\n"
  trace : trace = String.join (lines.map (· ++ "\n")) ++ ("output: " ++ out ++ "\n")
  json : ∀ j : Json, j.Proper ∧ j.pretty ++ "\n" = json ↔
    j = .obj [("counter", encode last.counter), ("halted", .bool halted), ("history", encode rs),
      ("output", .str out), ("steps", .int rs.length)]

theorem proper_traceJson (m : Machine) (outcome : RunOutcome) : (m.traceJson outcome).Proper :=
  ⟨Codec.Lawful.proper_encode m.counter, trivial, Codec.Lawful.proper_encode m.history, trivial, trivial, trivial⟩

/-- A trace printed as JSON is the text of one JSON value only. -/
theorem traceJson_unique (m : Machine) (outcome : RunOutcome) (j : Json) :
    j.Proper ∧ j.pretty ++ "\n" = (m.traceJson outcome).pretty ++ "\n" ↔ j = m.traceJson outcome := by
  constructor
  · rintro ⟨proper, text⟩
    exact Json.pretty_inj proper (proper_traceJson m outcome) ((String.append_left_inj _).1 text)
  · rintro rfl
    exact ⟨proper_traceJson m outcome, rfl⟩

theorem printed_run {l : Layout} (valid : l.validate = .ok ()) (p : Program) (values : List Word) (n : Nat) :
    let start := Machine.started l p values
    let m := Machine.forward^[n] start
    Printed l m.history ⟨m.memory, m.counter⟩ m.isHalted m.traceLines m.renderedOutput (m.renderedOutput ++ "\n")
      m.traceText ((m.traceJson ⟨Machine.moves n start, m.isHalted⟩).pretty ++ "\n") := by
  intro start m
  have traces : m.Traces values := (Machine.traces_started l p values).iterate_forward n
  have layout : m.layout = l := (Machine.kept_iterate_forward n start).layout
  have length : m.history.length = Machine.moves n start := (Machine.execution_run l p values n).2
  obtain ⟨-, -, forward, inside⟩ := (Layout.validate_eq_ok_iff l).1 valid
  have output : m.output = (m.memory.cells.extract l.output.start.toNat l.output.stop.toNat).toList := by
    rw [Machine.output_of_fits, layout]
    · rw [layout]
      exact forward
    · rw [traces.size_memory, layout]
      exact inside
  constructor
  · obtain ⟨nulls, split⟩ := toList_dropTrailingNulls m.outputText
    refine ⟨nulls, ?_⟩
    rw [← output]
    exact String.toList_ofList.symm.trans split
  · exact getLast?_dropTrailingNulls m.outputText
  · simp [Machine.traceLines]
  · intro i r hr
    refine ⟨?_, r.unbroken_line i, r.words_line i⟩
    simp [Machine.traceLines, hr]
  · rfl
  · rfl
  · rw [length]
    exact traceJson_unique m _

/-! ## Responses -/

theorem respond_of_not_holds {content : FileContent} (h : ¬ ∃ p, FileContent.Holds content p) (file : String) :
    ∃ message, ∀ task : Task, task.respond file content = .failure message := by
  obtain ⟨message, failed⟩ := program_of_not_holds h file
  refine ⟨message, fun task => ?_⟩
  unfold respond
  rw [failed]

theorem respond_of_holds {content : FileContent} {p : Program} (h : FileContent.Holds content p) (file : String)
    (task : Task) : task.respond file content = task.onProgram file p := by
  unfold respond
  rw [program_of_holds h]

theorem holds_unique {content : FileContent} {p q : Program} (h : FileContent.Holds content p)
    (h' : FileContent.Holds content q) : p = q := by
  have same := program_of_holds h ""
  rw [program_of_holds h' ""] at same
  exact (Except.ok.inj same).symm

/-- The program in the file is still running after the step budget. -/
def Exhausted (content : FileContent) (o : MachineOptions) : Prop :=
  ∃ p x, FileContent.Holds content p ∧
    Interpreter.steps p o.maxSteps.toNat (o.requested.interpreter o.values) = some x ∧ p.get? x.counter ≠ none

theorem exhausted_iff {content : FileContent} {p : Program} (holds : FileContent.Holds content p)
    {o : MachineOptions} {last : Interpreter} {rs : List Record}
    (execution : Interpreter.Execution p (o.requested.interpreter o.values) o.maxSteps.toNat rs last) :
    Exhausted content o ↔ p.get? last.counter ≠ none := by
  rw [execution.running_iff]
  constructor
  · rintro ⟨q, x, holds', state, names⟩
    cases holds_unique holds holds'
    exact ⟨x, state, names⟩
  · rintro ⟨x, state, names⟩
    exact ⟨p, x, holds, state, names⟩

theorem executed_of_invalid {o : MachineOptions} (invalid : o.requested.validate ≠ .ok ()) (p : Program) :
    ∃ message, ∀ report, executed o p report = .failure message := by
  obtain ⟨e, refused⟩ := MachineOptions.execute_of_invalid invalid
  refine ⟨e.message, fun report => ?_⟩
  unfold executed
  rw [refused p]

theorem executed_of_not_fits {o : MachineOptions} (valid : o.requested.validate = .ok ())
    (tooLarge : ¬ Memory.Fits o.memorySize.toNat) (p : Program) (report : Machine → RunOutcome → String) :
    executed o p report = .aborted "capacity overflow" := by
  unfold executed
  rw [MachineOptions.execute_of_not_fits valid tooLarge]

theorem executed_of_fits {o : MachineOptions} (valid : o.requested.validate = .ok ())
    (fits : Memory.Fits o.memorySize.toNat) (p : Program) (report : Machine → RunOutcome → String) :
    let start := Machine.started o.requested p o.values
    let m := Machine.forward^[o.maxSteps.toNat] start
    let outcome : RunOutcome := ⟨Machine.moves o.maxSteps.toNat start, m.isHalted⟩
    executed o p report = finish o m outcome (report m outcome) := by
  intro start m outcome
  have ran : o.execute p = .ok (m, outcome) := by
    rw [MachineOptions.execute_of_fits valid fits]
    exact congrArg Except.ok (Prod.ext (Machine.run_fst _ _) (Machine.run_snd _ _))
  unfold executed
  rw [ran]

theorem finish_eq (o : MachineOptions) (m : Machine) (outcome : RunOutcome) (report : String) :
    finish o m outcome report =
      ⟨if outcome.halted then 0 else 2, report, (finish o m outcome "").stderr⟩ := by
  unfold finish Response.success
  split <;> rfl

/-- What is reported of an execution makes no difference to its code and its message. -/
theorem executed_agrees (o : MachineOptions) (p : Program) (report report' : Machine → RunOutcome → String) :
    (executed o p report).code = (executed o p report').code ∧
      (executed o p report).stderr = (executed o p report').stderr := by
  unfold executed
  rcases o.execute p with (e | _) | ⟨m, outcome⟩
  · exact ⟨rfl, rfl⟩
  · exact ⟨rfl, rfl⟩
  · simp only
    rw [finish_eq o m outcome (report m outcome), finish_eq o m outcome (report' m outcome)]
    exact ⟨rfl, rfl⟩

theorem code_unexecuted {task : Task} (h : task = check ∨ task = disassemble) (file : String)
    (content : FileContent) :
    ((task.respond file content).code = 0 ↔ ∃ p, FileContent.Holds content p) ∧
      ((task.respond file content).code = 1 ↔ ¬ ∃ p, FileContent.Holds content p) := by
  by_cases compiles : ∃ p, FileContent.Holds content p
  · obtain ⟨p, holds⟩ := compiles
    have code : (task.respond file content).code = 0 := by
      rw [respond_of_holds holds]
      rcases h with rfl | rfl <;> rfl
    have compiles : ∃ p, FileContent.Holds content p := ⟨p, holds⟩
    simp [code, compiles]
  · obtain ⟨message, failed⟩ := respond_of_not_holds compiles file
    simp [failed task, Response.failure, compiles]

/-- There is no program in the file, or the layout asked for is not accepted. -/
def Refused (content : FileContent) (o : MachineOptions) : Prop :=
  (¬ ∃ p, FileContent.Holds content p) ∨ ¬ o.requested.validate = .ok ()

theorem not_refused_iff {content : FileContent} {o : MachineOptions} :
    ¬ Refused content o ↔ (∃ p, FileContent.Holds content p) ∧ o.requested.validate = .ok () := by
  simp only [Refused, not_or, not_not]

theorem run_of_refused {content : FileContent} {o : MachineOptions} (h : Refused content o) (file : String) :
    ∃ message, (run o).respond file content = .failure message := by
  by_cases compiles : ∃ p, FileContent.Holds content p
  · obtain ⟨p, holds⟩ := compiles
    obtain ⟨message, failed⟩ := executed_of_invalid (h.resolve_left (fun none => none ⟨p, holds⟩)) p
    rw [respond_of_holds holds]
    exact ⟨message, failed _⟩
  · obtain ⟨message, failed⟩ := respond_of_not_holds compiles file
    exact ⟨message, failed _⟩

/-- A task that executes a program, cut off for its memory, says the same whatever it reports. -/
theorem respond_of_aborted {content : FileContent} {p : Program} (holds : FileContent.Holds content p)
    {o : MachineOptions} (valid : o.requested.validate = .ok ()) (tooLarge : ¬ Memory.Fits o.memorySize.toNat)
    (file : String) :
    (run o).respond file content = .aborted "capacity overflow" ∧
      ∀ json, (trace o json).respond file content = .aborted "capacity overflow" := by
  refine ⟨?_, fun json => ?_⟩
  · rw [respond_of_holds holds]
    exact executed_of_not_fits valid tooLarge p _
  · rw [respond_of_holds holds]
    cases json <;> exact executed_of_not_fits valid tooLarge p _

/-- A task that executes a program runs it once, whatever it reports. -/
theorem respond_of_accepted {content : FileContent} {p : Program} (holds : FileContent.Holds content p)
    {o : MachineOptions} (valid : o.requested.validate = .ok ()) (fits : Memory.Fits o.memorySize.toNat)
    (file : String) :
    ∃ rs last lines out text traced encoded stderr,
      Interpreter.Execution p (o.requested.interpreter o.values) o.maxSteps.toNat rs last ∧
      Printed o.requested rs last (p.get? last.counter).isNone lines out text traced encoded ∧
      let code := if (p.get? last.counter).isNone then 0 else 2
      (run o).respond file content = ⟨code, text, stderr⟩ ∧
      (trace o false).respond file content = ⟨code, traced, stderr⟩ ∧
      (trace o true).respond file content = ⟨code, encoded, stderr⟩ := by
  let start := Machine.started o.requested p o.values
  let m := Machine.forward^[o.maxSteps.toNat] start
  let outcome : RunOutcome := ⟨Machine.moves o.maxSteps.toNat start, m.isHalted⟩
  have halted : m.isHalted = (p.get? m.counter).isNone := Machine.isHalted_run o.requested p o.values _
  refine ⟨m.history, ⟨m.memory, m.counter⟩, m.traceLines, m.renderedOutput, m.renderedOutput ++ "\n", m.traceText,
    (m.traceJson outcome).pretty ++ "\n", (finish o m outcome "").stderr,
    (Machine.execution_run o.requested p o.values _).1, ?_⟩
  rw [← halted]
  refine ⟨printed_run valid p o.values _, ?_, ?_, ?_⟩
  all_goals
    rw [respond_of_holds holds, onProgram, executed_of_fits valid fits]
    exact finish_eq o m outcome _

theorem trace_agrees (file : String) (content : FileContent) (o : MachineOptions) (json : Bool) :
    ((trace o json).respond file content).code = ((run o).respond file content).code ∧
      ((trace o json).respond file content).stderr = ((run o).respond file content).stderr := by
  by_cases compiles : ∃ p, FileContent.Holds content p
  · obtain ⟨p, holds⟩ := compiles
    rw [respond_of_holds holds, respond_of_holds holds]
    cases json with
    | false => exact executed_agrees o p _ _
    | true => exact executed_agrees o p _ _
  · obtain ⟨message, failed⟩ := respond_of_not_holds compiles file
    rw [failed, failed]
    exact ⟨rfl, rfl⟩

/-- The exit code of a command that executes a program. -/
theorem code_run_iff (file : String) (content : FileContent) (o : MachineOptions) :
    let code := ((run o).respond file content).code
    let fits := Memory.Fits o.memorySize.toNat
    (code = 1 ↔ Refused content o) ∧ (code = 101 ↔ ¬ Refused content o ∧ ¬ fits) ∧
      (code = 2 ↔ ¬ Refused content o ∧ fits ∧ Exhausted content o) ∧
      (code = 0 ↔ ¬ Refused content o ∧ fits ∧ ¬ Exhausted content o) := by
  intro code fits
  by_cases refused : Refused content o
  · obtain ⟨message, ran⟩ := run_of_refused refused file
    have one : code = 1 := congrArg Response.code ran
    simp [one, refused]
  · obtain ⟨⟨p, holds⟩, valid⟩ := not_refused_iff.1 refused
    by_cases room : fits
    · obtain ⟨rs, last, _, _, _, _, _, _, execution, -, ran, -⟩ := respond_of_accepted holds valid room file
      have value : code = if (p.get? last.counter).isNone then 0 else 2 := congrArg Response.code ran
      rw [value, exhausted_iff holds execution]
      cases p.get? last.counter <;> simp [refused, room]
    · have cut : code = 101 := congrArg Response.code (respond_of_aborted holds valid room file).1
      simp [cut, refused, room]

/-- A command that was neither refused nor cut off reports an execution. -/
theorem printed_of_fits {content : FileContent} {p : Program} (holds : FileContent.Holds content p)
    {o : MachineOptions} (valid : o.requested.validate = .ok ()) (fits : Memory.Fits o.memorySize.toNat)
    (file : String) :
    let run := (Task.run o).respond file content
    ∃ rs last lines out, Interpreter.Execution p (o.requested.interpreter o.values) o.maxSteps.toNat rs last ∧
      Printed o.requested rs last (run.code = 0) lines out run.stdout ((Task.trace o false).respond file content).stdout
        ((Task.trace o true).respond file content).stdout ∧
      (run.code = 2 → lines.length = o.maxSteps.toNat) := by
  intro run
  obtain ⟨rs, last, lines, out, text, traced, encoded, stderr, execution, printed, ran, tracedBy, encodedBy⟩ :=
    respond_of_accepted holds valid fits file
  have code : run.code = if (p.get? last.counter).isNone then 0 else 2 := congrArg Response.code ran
  have halted : decide (run.code = 0) = (p.get? last.counter).isNone := by
    rw [code]
    cases p.get? last.counter <;> rfl
  refine ⟨rs, last, lines, out, execution, ?_, fun exhausted => ?_⟩
  · rw [halted, show run.stdout = text from congrArg Response.stdout ran, tracedBy, encodedBy]
    exact printed
  · rw [printed.count]
    refine execution.length_of_running fun ended => ?_
    rw [code, ended] at exhausted
    cases exhausted

end Task

end Retrace
