import Retrace.Operator

/-!
# Effects of instructions

What an instruction does, and everything that follows from it: the kinds of its operands, the
family it belongs to and the sentence that describes it.

* `OperandKind` : how an operand is read;
* `Family` : the six families, in catalog order;
* `InputForm` : where the two inputs of an operator come from;
* `Effect` : the transition of an instruction, in terms of its operands `a`, `b`, `c`;
* `Effect.kinds`, `Effect.family`, `Effect.description`.
-/

namespace Retrace

inductive OperandKind where
  /-- A literal value. -/
  | constant
  /-- The address of the cell that is used. -/
  | address
  /-- The address of a cell that holds the address that is used. -/
  | pointer
  deriving DecidableEq, Repr

namespace OperandKind

def all : List OperandKind := [constant, address, pointer]

def name : OperandKind → String
  | constant => "constant"
  | address => "address"
  | pointer => "pointer"

def tag : OperandKind → String
  | constant => "Constant"
  | address => "Address"
  | pointer => "Pointer"

end OperandKind

inductive Family where
  | assignment | arithmetic | bitwise | comparison | indirection | controlFlow
  deriving DecidableEq, Repr

namespace Family

def all : List Family :=
  [assignment, arithmetic, bitwise, comparison, indirection, controlFlow]

def name : Family → String
  | assignment => "assignment"
  | arithmetic => "arithmetic"
  | bitwise => "bitwise"
  | comparison => "comparison"
  | indirection => "indirection"
  | controlFlow => "control flow"

def tag : Family → String
  | assignment => "Assignment"
  | arithmetic => "Arithmetic"
  | bitwise => "Bitwise"
  | comparison => "Comparison"
  | indirection => "Indirection"
  | controlFlow => "ControlFlow"

end Family

inductive InputForm where
  /-- Both inputs are cells. -/
  | addresses
  /-- The right input is the operand itself. -/
  | constRight
  /-- The left input is the operand itself. -/
  | constLeft
  deriving DecidableEq, Repr

namespace InputForm

def all : List InputForm := [addresses, constRight, constLeft]

def tag : InputForm → String
  | addresses => "Addresses"
  | constRight => "ConstRight"
  | constLeft => "ConstLeft"

def kinds : InputForm → List OperandKind
  | addresses => [.address, .address]
  | constRight => [.address, .constant]
  | constLeft => [.constant, .address]

end InputForm

/-- The transition an instruction performs. `[x]` is the cell with address `x`. -/
inductive Effect where
  /-- Sets `[a]` to `[b]`. -/
  | copy
  /-- Sets `[a]` to `b`. -/
  | assign
  /-- Sets `[c]` to the value of the operator on two inputs, which the form chooses. -/
  | binary (op : Operator) (form : InputForm)
  /-- Inverts every bit of `[a]`. -/
  | invert
  /-- Sets `[b]` to `[[a]]`. -/
  | load
  /-- Sets `[[a]]` to `[b]`. -/
  | store
  /-- Sets `[[a]]` to `b`. -/
  | storeConst
  /-- Goes to statement `[a]`. -/
  | jump
  /-- Goes to statement `a`. -/
  | jumpConst
  /-- Goes to statement `a` if `[b]` is not zero. -/
  | jumpIfNonZero
  deriving DecidableEq, Repr

namespace Operator

def family : Operator → Family
  | add | sub | mul | div | mod => .arithmetic
  | and | or | xor => .bitwise
  | gt | lt | ge | le | eq | neq => .comparison

end Operator

namespace Effect

def kinds : Effect → List OperandKind
  | copy => [.address, .address]
  | assign => [.address, .constant]
  | binary _ form => form.kinds ++ [.address]
  | invert => [.address]
  | load => [.pointer, .address]
  | store => [.pointer, .address]
  | storeConst => [.pointer, .constant]
  | jump => [.address]
  | jumpConst => [.constant]
  | jumpIfNonZero => [.constant, .address]

def operands (e : Effect) : List (String × OperandKind) :=
  ["a", "b", "c"].zip e.kinds

def family : Effect → Family
  | copy | assign => .assignment
  | binary op _ => op.family
  | invert => .bitwise
  | load | store | storeConst => .indirection
  | jump | jumpConst | jumpIfNonZero => .controlFlow

def operator? : Effect → Option Operator
  | binary op _ => some op
  | _ => none

/-! ## Descriptions

An operand stands in a description as its name in braces. -/

private def a : String := "\x7ba\x7d"

private def b : String := "\x7bb\x7d"

private def c : String := "\x7bc\x7d"

/-- The description of an operator's instructions, whatever their form. -/
def operatorDescription (op : Operator) : String :=
  match op with
  | .add => s!"add {a} and {b}, store in {c}"
  | .sub => s!"subtract {b} from {a}, store in {c}"
  | .mul => s!"multiply {a} by {b}, store in {c}"
  | .div => s!"divide {a} by {b}, store in {c}"
  | .mod => s!"{a} modulo {b}, store in {c}"
  | .and => s!"bitwise and of {a} and {b}, store in {c}"
  | .or => s!"bitwise or of {a} and {b}, store in {c}"
  | .xor => s!"bitwise xor of {a} and {b}, store in {c}"
  | .gt | .lt | .ge | .le | .eq | .neq =>
    s!"store 1 in {c} if {a} {op.symbol} {b}, else 0"

def description : Effect → String
  | copy => s!"set {a} to the value of {b}"
  | assign => s!"set {a} to {b}"
  | binary op _ => operatorDescription op
  | invert => s!"invert every bit of {a}"
  | load => s!"read the cell {a} points to into {b}"
  | store => s!"write {b} into the cell {a} points to"
  | storeConst => s!"write {b} into the cell {a} points to"
  | jump => s!"jump to the statement index stored in {a}"
  | jumpConst => s!"jump to statement {a}"
  | jumpIfNonZero => s!"jump to statement {a} if {b} is not 0"

end Effect

end Retrace
