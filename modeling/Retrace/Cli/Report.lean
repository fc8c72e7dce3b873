import Retrace.Json.Codec
import Retrace.Json.Pretty

/-!
# Printed reports

* `Machine.renderedOutput` : the output text without the unused cells at its end;
* `Record.line` : a recorded step as one line;
* `Machine.traceText`, `Machine.traceJson` : a finished run, as lines or as JSON;
* `Opcode.signature`, `Opcode.details`, `Opcode.listing` : the catalog.
-/

namespace Retrace

namespace Text

/-- At least `width` characters, filled up with blanks in front. -/
def padLeft (width : Nat) (s : String) : String :=
  String.ofList (s.toList.leftpad width ' ')

/-- At least `width` characters, filled up with blanks behind. -/
def padRight (width : Nat) (s : String) : String :=
  String.ofList (s.toList.rightpad width ' ')

def dropTrailingNulls (s : String) : String :=
  String.ofList (s.toList.reverse.dropWhile (· = '\x00')).reverse

end Text

open Text

/-! ## Runs -/

namespace Machine

/-- The output as text, without the zero cells at its end. -/
def renderedOutput (m : Machine) : String :=
  dropTrailingNulls m.outputText

end Machine

namespace Write

def line (w : Write) : String :=
  s!"  [{w.address.text}] {w.oldValue.text} -> {w.newValue.text}"

end Write

namespace Record

/-- Plain for a step to the following statement, double for any other. -/
def arrow (r : Record) : String :=
  if r.jumped then "=>" else "->"

/-- The addresses outside the memory, if there were any. -/
def strays (r : Record) : String :=
  if r.footprint.outOfBounds.toList.isEmpty then ""
  else "  out of bounds:" ++
    String.join (r.footprint.outOfBounds.toList.map fun address => " " ++ address.text)

/-- The step with number `index`: the counters, the statement, the writes and the strays. -/
def line (index : Nat) (r : Record) : String :=
  padLeft 5 index.repr ++ "  " ++ padLeft 4 r.before.text ++ " " ++ r.arrow ++ " " ++
    padRight 4 r.after.text ++ "  " ++ r.statement.text ++
    String.join (r.commit.records.map Write.line) ++ r.strays

end Record

namespace Machine

def traceLines (m : Machine) : List String :=
  m.history.zipIdx.map fun (r, i) => r.line i

def traceText (m : Machine) : String :=
  String.join (m.traceLines.map (· ++ "\n")) ++ s!"output: {m.renderedOutput}\n"

/-- The outcome of a run, the recorded steps and the output. -/
def traceJson (m : Machine) (outcome : RunOutcome) : Json :=
  .obj [("counter", encode m.counter), ("halted", .bool outcome.halted),
    ("history", encode m.history), ("output", .str m.renderedOutput),
    ("steps", .int outcome.steps)]

end Machine

/-! ## The catalog -/

namespace Opcode

/-- The mnemonic and the names of the operands. -/
def signature (op : Opcode) : String :=
  op.mnemonic ++ String.join (op.effect.operands.map fun (name, _) => " " ++ name)

def details (op : Opcode) : String :=
  let operands := op.effect.operands.map fun (name, kind) => s!"  {name}: {kind.name}\n"
  let operator := match op.effect.operator? with
    | none => ""
    | some o => s!"  operator: {o.symbol}\n"
  s!"{op.signature}\n  opcode:  {op.code.repr}\n  group:   {op.family.name}\n" ++
    String.join operands ++ operator ++ s!"  {op.effect.description}\n"

def listingLine (op : Opcode) : String :=
  "  " ++ padLeft 2 op.code.repr ++ "  " ++ padRight 18 op.signature ++
    op.effect.description ++ "\n"

/-- The whole catalog, family by family. -/
def listing : String :=
  String.join (Family.all.map fun f =>
    f.name ++ ":\n" ++ String.join ((inFamily f).map listingLine))

end Opcode

end Retrace
