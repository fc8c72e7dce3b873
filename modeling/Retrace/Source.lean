import Retrace.Program
import Retrace.Text.Blank
import Retrace.Text.Numeral

/-!
# Source text

A source holds one statement a line: a mnemonic and its operands, separated by blanks. Lines
without a word, and lines whose first word starts with `#`, hold nothing.

* `Source.lines` : the pieces between line feeds;
* `Source.readLine` : the statement of a line, if it holds one;
* `LineFault` : what is wrong with a line; the checks run in the order mnemonic, operands, count;
* `Source.compile` : the program of a source, or the fault of its first bad line.
-/

namespace Retrace

/-- What is wrong with a line. -/
inductive LineFault where
  | unknownInstruction (token : String)
  | malformedOperand (token : String)
  | arityMismatch (opcode : Opcode) (found : Nat)
  deriving DecidableEq, Repr

/-- Why a source is no program. Lines count from 1. -/
inductive CompileError where
  | atLine (line : Nat) (fault : LineFault)
  | emptyProgram
  deriving DecidableEq, Repr

namespace LineFault

def message : LineFault → String
  | unknownInstruction token => s!"unknown instruction '{token}'"
  | malformedOperand token => s!"malformed operand '{token}'"
  | arityMismatch op found =>
    s!"{op.mnemonic} expects {op.arity.repr} operand(s), found {found.repr}"

end LineFault

namespace CompileError

def message : CompileError → String
  | atLine line fault => s!"line {line.repr}: {fault.message}"
  | emptyProgram => "empty program"

/-- The line at fault, if a line is. -/
def line? : CompileError → Option Nat
  | atLine line _ => some line
  | emptyProgram => none

end CompileError

namespace Source

open Text

/-- The pieces between line feeds. -/
def lines (text : List Char) : List (List Char) :=
  text.splitOn '\n'

/-- The operands of a line, up to the first word that is no literal. -/
def readOperands : List (List Char) → Except LineFault (List Word)
  | [] => .ok []
  | word :: rest =>
    match Word.ofLiteral? word with
    | none => .error (.malformedOperand (String.ofList word))
    | some value => (readOperands rest).map (value :: ·)

/-- The statement of an instruction and the words after it. -/
def readStatement (op : Opcode) (rest : List (List Char)) : Except LineFault Statement :=
  if rest.isEmpty then .error (.malformedOperand "")
  else
    match readOperands rest with
    | .error fault => .error fault
    | .ok operands =>
      if operands.length = op.arity then .ok (Statement.filled op operands)
      else .error (.arityMismatch op operands.length)

/-- The statement of a line, or nothing for a blank line or a comment. -/
def readLine (line : List Char) : Except LineFault (Option Statement) :=
  match words line with
  | [] => .ok none
  | first :: rest =>
    if first.head? = some '#' then .ok none
    else
      match Opcode.ofMnemonic? (String.ofList first) with
      | none => .error (.unknownInstruction (String.ofList first))
      | some op => (readStatement op rest).map some

/-- The statements of `lines`, the first of which has number `number`. -/
def readLines (number : Nat) : List (List Char) → Except CompileError (List Statement)
  | [] => .ok []
  | line :: rest =>
    match readLine line with
    | .error fault => .error (.atLine number fault)
    | .ok none => readLines (number + 1) rest
    | .ok (some s) => (readLines (number + 1) rest).map (s :: ·)

/-- The program of a source text. -/
def compile (text : String) : Except CompileError Program :=
  match readLines 1 (lines text.toList) with
  | .error e => .error e
  | .ok [] => .error .emptyProgram
  | .ok statements => .ok ⟨statements.toArray⟩

end Source

end Retrace
