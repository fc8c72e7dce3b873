import Retrace.Cli.SpanText
import Retrace.Text.Terminal

/-!
# Command-line arguments

* `Task`, `Command` : what the command line asks for;
* `MachineOptions` : the options of the tasks that execute a program;
* `Cli.parse` : the command of a list of arguments;
* `ArgumentError` : a rejected option value, or any other fault of the arguments.

Arguments are first sorted into items (`Cli.scan`) and then taken one after the other
(`Cli.Draft.take`). A value that stands in an argument of its own is looked at only when another
accepted argument, or the end, follows it; so an argument that is not accepted wins over the value
right before it. A call for help is accepted everywhere: faults before it are reported, and nothing
after it is looked at.
-/

namespace Retrace

structure MachineOptions where
  input : Option String
  maxSteps : Size
  memorySize : Size
  inputRange : Option Span
  outputRange : Option Span
  deriving DecidableEq, Repr

inductive Task where
  | check
  | run (options : MachineOptions)
  | trace (options : MachineOptions) (json : Bool)
  | disassemble
  deriving DecidableEq, Repr

inductive Command where
  | onFile (task : Task) (file : String)
  | catalog (mnemonic : Option String)
  | help
  deriving DecidableEq, Repr

namespace Cli

inductive Verb where
  | check | run | trace | disassemble | catalog
  deriving DecidableEq, Repr

/-- The options that take a value. -/
inductive Setting where
  | input | maxSteps | memorySize | inputRange | outputRange
  deriving DecidableEq, Repr

inductive ArgumentError where
  | usage
  | invalidValue (setting : Setting) (value : String) (reason : String)
  deriving DecidableEq, Repr

namespace Verb

def all : List Verb := [check, run, trace, disassemble, catalog]

def name : Verb → String
  | check => "check"
  | run => "run"
  | trace => "trace"
  | disassemble => "disassemble"
  | catalog => "catalog"

def takesSettings : Verb → Bool
  | run | trace => true
  | _ => false

def takesJson : Verb → Bool
  | trace => true
  | _ => false

end Verb

namespace Setting

def all : List Setting := [input, maxSteps, memorySize, inputRange, outputRange]

def name : Setting → String
  | input => "input"
  | maxSteps => "max-steps"
  | memorySize => "memory-size"
  | inputRange => "input-range"
  | outputRange => "output-range"

/-- The name under which messages speak of the value. -/
def placeholder : Setting → String
  | input => "INPUT"
  | maxSteps => "MAX_STEPS"
  | memorySize => "MEMORY_SIZE"
  | inputRange => "INPUT_RANGE"
  | outputRange => "OUTPUT_RANGE"

end Setting

/-- A text between the sequences that switch a style of the terminal on and all styles off. -/
def styled (style : Nat) (text : String) : String :=
  s!"\x1b[{style.repr}m{text}\x1b[0m"

namespace ArgumentError

/-- The report for a terminal: the label is red, the value yellow and what can be typed bold. -/
def report : ArgumentError → String
  | usage => "usage error"
  | invalidValue setting value reason =>
    let label := styled 31 "error:"
    let rejected := styled 33 value
    let option := styled 1 s!"--{setting.name} <{setting.placeholder}>"
    let advice := styled 1 "--help"
    s!"{label} invalid value '{rejected}' for '{option}': {reason}\n\n" ++
      s!"For more information, try '{advice}'.\n"

/-- The first line of the report, without what only a terminal understands. -/
def message (e : ArgumentError) : String :=
  String.ofList (Text.firstLine (Terminal.visible e.report.toList))

end ArgumentError

/-! ## Sorting the arguments -/

inductive Item where
  | help
  | json
  /-- An option with its value in the same argument. -/
  | attached (setting : Setting) (value : String)
  /-- An option with its value in the next argument. -/
  | detached (setting : Setting) (value : String)
  /-- An option whose value is missing. -/
  | bare (setting : Setting)
  | positional (value : String)
  deriving DecidableEq, Repr

/-- Whether an argument can only be an option: it starts with a dash and is more than that. -/
def isDashed (argument : String) : Bool :=
  argument.toList.head? = some '-' && argument != "-"

/-- Name and attached value of an option with two dashes. -/
def splitOption (argument : String) : Option (String × Option String) :=
  match argument.toList with
  | '-' :: '-' :: rest =>
    let name := String.ofList (rest.takeWhile (· ≠ '='))
    match rest.dropWhile (· ≠ '=') with
    | [] => some (name, none)
    | _ :: value => some (name, some (String.ofList value))
  | _ => none

/-- Whether an argument asks for help: the option in full, or a row of one-letter options that
begins with it. -/
def isHelp (argument : String) : Bool :=
  argument = "--help" || ['-', 'h'].isPrefixOf argument.toList

def setting? (verb : Verb) (name : String) : Option Setting :=
  if verb.takesSettings then Setting.all.find? fun s => s.name = name else none

/-- The accepted items up to the first argument that is not accepted, and whether there is one. -/
abbrev Scan := List Item × Bool

def Scan.cons (item : Item) (scan : Scan) : Scan := (item :: scan.1, scan.2)

/-- Sorts arguments of which none is an option any more. `free` tells whether a positional argument
is still accepted. -/
def scanPositionals (free : Bool) : List String → Scan
  | [] => ([], false)
  | argument :: rest =>
    if free then Scan.cons (.positional argument) (scanPositionals false rest) else ([], true)

def scan (verb : Verb) (free : Bool) : List String → Scan
  | [] => ([], false)
  | argument :: rest =>
    if argument = "--" then scanPositionals free rest
    else if isHelp argument then ([.help], false)
    else if isDashed argument then
      match splitOption argument with
      | none => ([], true)
      | some (name, value?) =>
        if name = "json" ∧ verb.takesJson then
          if value?.isSome then ([], true) else Scan.cons .json (scan verb free rest)
        else
          match setting? verb name, value?, rest with
          | none, _, _ => ([], true)
          | some s, some value, rest => Scan.cons (.attached s value) (scan verb free rest)
          | some s, none, [] => Scan.cons (.bare s) ([], false)
          | some s, none, value :: after =>
            if isDashed value then Scan.cons (.bare s) (scan verb free (value :: after))
            else Scan.cons (.detached s value) (scan verb free after)
    else if free then Scan.cons (.positional argument) (scan verb false rest)
    else ([], true)

/-! ## Taking the items -/

structure Draft where
  help : Bool := false
  positional : Option String := none
  json : Bool := false
  input : Option String := none
  maxSteps : Option Size := none
  memorySize : Option Size := none
  inputRange : Option Span := none
  outputRange : Option Span := none
  deriving DecidableEq, Repr

namespace Draft

def has (d : Draft) : Setting → Bool
  | .input => d.input.isSome
  | .maxSteps => d.maxSteps.isSome
  | .memorySize => d.memorySize.isSome
  | .inputRange => d.inputRange.isSome
  | .outputRange => d.outputRange.isSome

def set (d : Draft) (setting : Setting) (value : String) : Except ArgumentError Draft :=
  let size := (Size.parse value.toList).mapError fun e =>
    ArgumentError.invalidValue setting value e.message
  let span := (Span.parse value.toList).mapError fun e =>
    ArgumentError.invalidValue setting value e.message
  match setting with
  | .input => .ok { d with input := some value }
  | .maxSteps => size.map fun n => { d with maxSteps := some n }
  | .memorySize => size.map fun n => { d with memorySize := some n }
  | .inputRange => span.map fun s => { d with inputRange := some s }
  | .outputRange => span.map fun s => { d with outputRange := some s }

/-- Takes an option with its value; a second time is a fault. -/
def give (d : Draft) (setting : Setting) (value : String) : Except ArgumentError Draft :=
  if d.has setting then .error .usage else d.set setting value

/-- Takes an item. A file name must not be empty. -/
def take (verb : Verb) (d : Draft) : Item → Except ArgumentError Draft
  | .help => .ok { d with help := true }
  | .json => if d.json then .error .usage else .ok { d with json := true }
  | .attached setting value => d.give setting value
  | .detached setting value => d.give setting value
  | .bare _ => .error .usage
  | .positional value =>
    if value = "" ∧ verb ≠ .catalog then .error .usage else .ok { d with positional := some value }

def takeAll (verb : Verb) (d : Draft) : List Item → Except ArgumentError Draft
  | [] => .ok d
  | item :: rest =>
    match d.take verb item with
    | .error e => .error e
    | .ok d' => takeAll verb d' rest

def options (d : Draft) : MachineOptions :=
  { input := d.input
    maxSteps := d.maxSteps.getD 10000
    memorySize := d.memorySize.getD 256
    inputRange := d.inputRange
    outputRange := d.outputRange }

/-- The command of a finished draft. All commands but the catalog need a file, unless help is asked
for. -/
def command (verb : Verb) (d : Draft) : Except ArgumentError Command :=
  if d.help then .ok .help
  else
    match verb, d.positional with
    | .catalog, mnemonic => .ok (.catalog mnemonic)
    | _, none => .error .usage
    | .check, some file => .ok (.onFile .check file)
    | .disassemble, some file => .ok (.onFile .disassemble file)
    | .run, some file => .ok (.onFile (.run d.options) file)
    | .trace, some file => .ok (.onFile (.trace d.options d.json) file)

end Draft

/-- The items that are settled when an argument that is not accepted follows: all but a last one
that still waits to be looked at. -/
def settled : List Item → List Item
  | [] => []
  | [.json] => [.json]
  | [.attached setting value] => [.attached setting value]
  | [_] => []
  | item :: rest => item :: settled rest

def parseFor (verb : Verb) (arguments : List String) : Except ArgumentError Command :=
  match scan verb true arguments with
  | (items, true) =>
    match Draft.takeAll verb {} (settled items) with
    | .error e => .error e
    | .ok _ => .error .usage
  | (items, false) =>
    match Draft.takeAll verb {} items with
    | .error e => .error e
    | .ok d => d.command verb

def verb? (name : String) : Option Verb :=
  Verb.all.find? fun v => v.name = name

/-- The command of the arguments after the word `help`: none, or the name of a command. -/
def parseHelp : List String → Except ArgumentError Command
  | [] => .ok .help
  | [topic] => if topic = "help" ∨ (verb? topic).isSome then .ok .help else .error .usage
  | _ => .error .usage

def parse : List String → Except ArgumentError Command
  | [] => .error .usage
  | name :: arguments =>
    if isHelp name then .ok .help
    else if name = "help" then parseHelp arguments
    else
      match verb? name with
      | none => .error .usage
      | some verb => parseFor verb arguments

end Cli

end Retrace
