import Retrace.Effect

/-!
# The instruction catalog

* `Opcode` : the 46 instructions, in catalog order;
* `Opcode.entry` : mnemonic, JSON name and effect of an instruction;
* `Opcode.code`, `Opcode.ofCode?` : the position in the catalog and back;
* `Opcode.ofMnemonic?` : look-up by exact mnemonic.
-/

namespace Retrace

inductive Opcode where
  | set | setC
  | add | addC | addRc
  | mul | mulC | mulRc
  | sub | subC | subRc
  | div | divC | divRc
  | mod | modC | modRc
  | and | andC
  | or | orC
  | xor | xorC
  | rev
  | gt | gtC | gtRc
  | lt | ltC | ltRc
  | ge | geC | geRc
  | le | leC | leRc
  | eq | eqC
  | neq | neqC
  | read
  | write | writeC
  | jmp | jmpC
  | jcnz
  deriving DecidableEq, Repr

namespace Opcode

/-- Every instruction, in catalog order. -/
def all : List Opcode := [
  set, setC,
  add, addC, addRc, mul, mulC, mulRc, sub, subC, subRc, div, divC, divRc, mod, modC, modRc,
  and, andC, or, orC, xor, xorC, rev,
  gt, gtC, gtRc, lt, ltC, ltRc, ge, geC, geRc, le, leC, leRc, eq, eqC, neq, neqC,
  read, write, writeC,
  jmp, jmpC, jcnz]

/-- What the catalog holds about an instruction. -/
structure Entry where
  mnemonic : String
  /-- The name in JSON. -/
  tag : String
  effect : Effect

def entry : Opcode → Entry
  | set => ⟨"set", "Set", .copy⟩
  | setC => ⟨"setc", "SetC", .assign⟩
  | add => ⟨"add", "Add", .binary .add .addresses⟩
  | addC => ⟨"addc", "AddC", .binary .add .constRight⟩
  | addRc => ⟨"addrc", "AddRc", .binary .add .constLeft⟩
  | mul => ⟨"mul", "Mul", .binary .mul .addresses⟩
  | mulC => ⟨"mulc", "MulC", .binary .mul .constRight⟩
  | mulRc => ⟨"mulrc", "MulRc", .binary .mul .constLeft⟩
  | sub => ⟨"sub", "Sub", .binary .sub .addresses⟩
  | subC => ⟨"subc", "SubC", .binary .sub .constRight⟩
  | subRc => ⟨"subrc", "SubRc", .binary .sub .constLeft⟩
  | div => ⟨"div", "Div", .binary .div .addresses⟩
  | divC => ⟨"divc", "DivC", .binary .div .constRight⟩
  | divRc => ⟨"divrc", "DivRc", .binary .div .constLeft⟩
  | mod => ⟨"mod", "Mod", .binary .mod .addresses⟩
  | modC => ⟨"modc", "ModC", .binary .mod .constRight⟩
  | modRc => ⟨"modrc", "ModRc", .binary .mod .constLeft⟩
  | and => ⟨"and", "And", .binary .and .addresses⟩
  | andC => ⟨"andc", "AndC", .binary .and .constRight⟩
  | or => ⟨"or", "Or", .binary .or .addresses⟩
  | orC => ⟨"orc", "OrC", .binary .or .constRight⟩
  | xor => ⟨"xor", "Xor", .binary .xor .addresses⟩
  | xorC => ⟨"xorc", "XorC", .binary .xor .constRight⟩
  | rev => ⟨"rev", "Rev", .invert⟩
  | gt => ⟨"gt", "Gt", .binary .gt .addresses⟩
  | gtC => ⟨"gtc", "GtC", .binary .gt .constRight⟩
  | gtRc => ⟨"gtrc", "GtRc", .binary .gt .constLeft⟩
  | lt => ⟨"lt", "Lt", .binary .lt .addresses⟩
  | ltC => ⟨"ltc", "LtC", .binary .lt .constRight⟩
  | ltRc => ⟨"ltrc", "LtRc", .binary .lt .constLeft⟩
  | ge => ⟨"ge", "Ge", .binary .ge .addresses⟩
  | geC => ⟨"gec", "GeC", .binary .ge .constRight⟩
  | geRc => ⟨"gerc", "GeRc", .binary .ge .constLeft⟩
  | le => ⟨"le", "Le", .binary .le .addresses⟩
  | leC => ⟨"lec", "LeC", .binary .le .constRight⟩
  | leRc => ⟨"lerc", "LeRc", .binary .le .constLeft⟩
  | eq => ⟨"eq", "Eq", .binary .eq .addresses⟩
  | eqC => ⟨"eqc", "EqC", .binary .eq .constRight⟩
  | neq => ⟨"neq", "Neq", .binary .neq .addresses⟩
  | neqC => ⟨"neqc", "NeqC", .binary .neq .constRight⟩
  | read => ⟨"read", "Read", .load⟩
  | write => ⟨"write", "Write", .store⟩
  | writeC => ⟨"writec", "WriteC", .storeConst⟩
  | jmp => ⟨"jmp", "Jmp", .jump⟩
  | jmpC => ⟨"jmpc", "JmpC", .jumpConst⟩
  | jcnz => ⟨"jcnz", "Jcnz", .jumpIfNonZero⟩

def mnemonic (op : Opcode) : String := op.entry.mnemonic

def tag (op : Opcode) : String := op.entry.tag

def effect (op : Opcode) : Effect := op.entry.effect

def family (op : Opcode) : Family := op.effect.family

/-- The number of operands. -/
def arity (op : Opcode) : Nat := op.effect.kinds.length

def code (op : Opcode) : Nat := op.ctorIdx

def ofCode? (n : Nat) : Option Opcode := all[n]?

/-- The instruction with exactly this mnemonic. -/
def ofMnemonic? (name : String) : Option Opcode :=
  all.find? fun op => op.mnemonic = name

/-- The instructions of a family, in catalog order. -/
def inFamily (f : Family) : List Opcode :=
  all.filter fun op => op.family = f

theorem mem_all (op : Opcode) : op ∈ all := by
  cases op <;> decide

@[simp] theorem ofCode?_code (op : Opcode) : ofCode? op.code = some op := by
  cases op <;> rfl

theorem arity_le_three (op : Opcode) : op.arity ≤ 3 := by
  cases op <;> decide

theorem arity_pos (op : Opcode) : 0 < op.arity := by
  cases op <;> decide

end Opcode

end Retrace
