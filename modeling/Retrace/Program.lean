import Retrace.Statement

/-!
# Programs

* `Program` : a sequence of statements, possibly empty;
* `Program.get?` : the statement a counter names;
* `Program.text` : the canonical source text, one statement a line.
-/

namespace Retrace

/-- A sequence of statements. The empty program stands for "nothing loaded". -/
structure Program where
  statements : Array Statement
  deriving DecidableEq, Repr

namespace Program

def empty : Program := ⟨#[]⟩

def size (p : Program) : Nat := p.statements.size

/-- The statement at a counter. A negative counter, or one past the end, names none. -/
def get? (p : Program) (counter : Word) : Option Statement :=
  counter.index?.bind fun i => p.statements[i]?

/-- The canonical source text: the statements, each with a line end. -/
def text (p : Program) : String :=
  String.join (p.statements.toList.map fun s => s.text ++ "\n")

/-- The program of raw statements; the first bad one gives the error. -/
def ofCodes (raw : List (Nat × List Word)) : Except StatementError Program := do
  let statements ← raw.mapM fun (code, operands) => Statement.ofCode code operands
  return ⟨statements.toArray⟩

end Program

end Retrace
