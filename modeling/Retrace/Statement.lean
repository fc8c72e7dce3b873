import Retrace.Opcode
import Retrace.Script

/-!
# Statements

* `Statement` : an instruction with three operand slots;
* `Statement.operands` : the slots the instruction uses;
* `Statement.ofOperands`, `Statement.ofCode` : construction with the operand count checked;
* `Statement.text` : the source form;
* `Statement.script` : what the statement does to a memory and where it continues.
-/

namespace Retrace

/-- An instruction and its operand slots. Slots past the arity carry no meaning. -/
structure Statement where
  opcode : Opcode
  a : Word
  b : Word
  c : Word
  deriving DecidableEq, Repr

inductive StatementError where
  | unknownOpcode (code : Nat)
  | arityMismatch (opcode : Opcode) (found : Nat)
  deriving DecidableEq, Repr

/-- Where execution continues. -/
inductive Flow where
  /-- At the following statement. -/
  | advance
  /-- At the statement with this index. -/
  | jump (target : Word)
  deriving DecidableEq, Repr

namespace StatementError

def message : StatementError → String
  | unknownOpcode code => s!"unknown opcode: {code.repr}"
  | arityMismatch op found =>
    s!"{op.mnemonic} expects {op.arity.repr} operand(s), got {found.repr}"

end StatementError

namespace Statement

def slots (s : Statement) : List Word := [s.a, s.b, s.c]

/-- The operands the instruction uses. -/
def operands (s : Statement) : List Word := s.slots.take s.opcode.arity

/-- The statement with the given leading slots and zero in the others. -/
def filled (op : Opcode) (operands : List Word) : Statement :=
  ⟨op, operands.getD 0 0, operands.getD 1 0, operands.getD 2 0⟩

/-- A statement of exactly as many operands as the instruction takes. -/
def ofOperands (op : Opcode) (operands : List Word) : Except StatementError Statement :=
  if operands.length = op.arity then .ok (filled op operands)
  else .error (.arityMismatch op operands.length)

/-- A statement by the position of its instruction in the catalog. -/
def ofCode (code : Nat) (operands : List Word) : Except StatementError Statement :=
  match Opcode.ofCode? code with
  | none => .error (.unknownOpcode code)
  | some op => ofOperands op operands

/-- The source form: the mnemonic and the operands, one blank before each operand. -/
def text (s : Statement) : String :=
  s.opcode.mnemonic ++ String.join (s.operands.map fun operand => " " ++ operand.text)

end Statement

namespace Effect

/-- The reads of an operator's inputs, handed on as left and right value. -/
def inputs {α : Type} (form : InputForm) (a b : Word) (next : Word → Word → Script α) : Script α :=
  match form with
  | .addresses => .read a fun x => .read b fun y => next x y
  | .constRight => .read a fun x => next x b
  | .constLeft => .read b fun y => next a y

/-- The dialogue of an effect with operands `a`, `b`, `c`. -/
def script (a b c : Word) : Effect → Script Flow
  | copy => .read b fun x => .write a x (.done .advance)
  | assign => .write a b (.done .advance)
  | binary op form => inputs form a b fun x y => .write c (op.apply x y) (.done .advance)
  | invert => .read a fun x => .write a (~~~x) (.done .advance)
  | load => .read a fun target => .read target fun x => .write b x (.done .advance)
  | store => .read a fun target => .read b fun x => .write target x (.done .advance)
  | storeConst => .read a fun target => .write target b (.done .advance)
  | jump => .read a fun target => .done (.jump target)
  | jumpConst => .done (.jump a)
  | jumpIfNonZero => .read b fun x => .done (if x ≠ 0 then .jump a else .advance)

end Effect

def Statement.script (s : Statement) : Script Flow :=
  s.opcode.effect.script s.a s.b s.c

end Retrace
