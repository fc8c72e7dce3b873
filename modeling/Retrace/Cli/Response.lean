import Retrace.Cli.Help
import Retrace.Source

/-!
# Responses to commands

* `Response` : exit code and printed text;
* `ReadError` : why a file could not be read;
* `Task.respond` : a task on the content of its file;
* `Command.respond`, `Cli.respond` : a command, and a whole command line.

Exit codes: 0 for success, 1 for bad arguments, files, sources and layouts, 2 when the step budget
is exhausted before the program halts. A command that asks for more memory than there can be is cut
off and leaves the code 101.
-/

namespace Retrace

structure Response where
  code : Nat
  stdout : String
  stderr : String
  deriving DecidableEq, Repr

/-- Why a file could not be read. -/
inductive ReadError where
  | notFound
  | notDirectory
  | isDirectory
  | notText
  | other (reason : String)
  deriving DecidableEq, Repr

def ReadError.message : ReadError → String
  | notFound => "No such file or directory (os error 2)"
  | notDirectory => "Not a directory (os error 20)"
  | isDirectory => "Is a directory (os error 21)"
  | notText => "stream did not contain valid UTF-8"
  | other reason => reason

namespace Response

def success (stdout : String) : Response := ⟨0, stdout, ""⟩

def failure (message : String) : Response := ⟨1, "", s!"error: {message}\n"⟩

/-- The command was cut off. Of the report on it only the reason is kept, not the place. -/
def aborted (reason : String) : Response := ⟨101, "", s!"{reason}\n"⟩

end Response

abbrev FileContent := Except ReadError ByteArray

def FileContent.text (content : FileContent) : Except ReadError String :=
  match content with
  | .error e => .error e
  | .ok bytes =>
    match String.fromUTF8? bytes with
    | none => .error .notText
    | some text => .ok text

namespace Task

/-- The program in a file, or the response that says why there is none. -/
def program (file : String) (content : FileContent) : Except Response Program :=
  match FileContent.text content with
  | .error e => .error (.failure s!"cannot read '{file}': {e.message}")
  | .ok text =>
    match Source.compile text with
    | .error e => .error (.failure e.message)
    | .ok p => .ok p

end Task

namespace MachineOptions

/-- The standard layout of the given size, with the given ranges in place of its own. -/
def layout (o : MachineOptions) : Except LayoutError Layout := do
  let base ← (Layout.standard o.memorySize).validated
  { base with
    input := o.inputRange.getD base.input
    output := o.outputRange.getD base.output }.validated

/-- A machine that has run the program within the step budget. -/
def execute (o : MachineOptions) (p : Program) : Except CreateError (Machine × RunOutcome) := do
  let layout ← o.layout.mapError .refused
  let m ← Machine.create layout
  let loaded := m.load p
  let fed := match o.input with
    | none => loaded
    | some text => loaded.feed (Machine.codes text)
  return fed.run o.maxSteps.toNat

end MachineOptions

namespace Task

/-- Prints `report` of the run; code 2 if the run did not end by itself. -/
def finish (o : MachineOptions) (m : Machine) (outcome : RunOutcome) (report : String) : Response :=
  if outcome.halted then .success report
  else ⟨2, report,
    s!"error: step budget of {o.maxSteps.text} exhausted at statement {m.counter.text}\n"⟩

/-- Executes a program and prints `report` of the run. -/
def executed (o : MachineOptions) (p : Program) (report : Machine → RunOutcome → String) :
    Response :=
  match o.execute p with
  | .error (.refused e) => .failure e.message
  | .error .overflow => .aborted "capacity overflow"
  | .ok (m, outcome) => finish o m outcome (report m outcome)

def onProgram (file : String) (p : Program) : Task → Response
  | check => .success s!"OK: {file} ({p.size.repr} statements)\n"
  | disassemble => .success p.text
  | run o => executed o p fun m _ => m.renderedOutput ++ "\n"
  | trace o false => executed o p fun m _ => m.traceText
  | trace o true => executed o p fun m outcome => (m.traceJson outcome).pretty ++ "\n"

/-- The response to a task on the content of its file. -/
def respond (task : Task) (file : String) (content : FileContent) : Response :=
  match program file content with
  | .error response => response
  | .ok p => task.onProgram file p

end Task

def Command.respondCatalog : Option String → Response
  | none => .success Opcode.listing
  | some name =>
    match Opcode.ofMnemonic? name with
    | none => .failure s!"unknown instruction '{name}'"
    | some op => .success op.details

/-- The response to a command, where `read` gives the content of a file. -/
def Command.respond (read : String → FileContent) : Command → Response
  | onFile task file => task.respond file (read file)
  | catalog mnemonic => respondCatalog mnemonic
  | help => .success Cli.helpPage

/-- The response to a command line, where `read` gives the content of a file. -/
def Cli.respond (read : String → FileContent) (arguments : List String) : Response :=
  match Cli.parse arguments with
  | .error e => ⟨1, "", e.message⟩
  | .ok command => command.respond read

end Retrace
