import Retrace.Binary64

/-!
# Two-operand operators

* `Operator` : the arithmetic, bitwise and comparison operators;
* `Operator.apply` : their value on two words;
* `Operator.symbol`, `Operator.tag` : how an operator is shown and how it is named in JSON.
-/

namespace Retrace

/-- A two-operand operation on words. -/
inductive Operator where
  | add | sub | mul | div | mod
  | and | or | xor
  | gt | lt | ge | le | eq | neq
  deriving DecidableEq, Repr

namespace Operator

def all : List Operator :=
  [add, sub, mul, div, mod, and, or, xor, gt, lt, ge, le, eq, neq]

def symbol : Operator → String
  | add => "+"
  | sub => "-"
  | mul => "*"
  | div => "/"
  | mod => "%"
  | and => "&"
  | or => "|"
  | xor => "^"
  | gt => ">"
  | lt => "<"
  | ge => ">="
  | le => "<="
  | eq => "=="
  | neq => "!="

def tag : Operator → String
  | add => "Add"
  | sub => "Sub"
  | mul => "Mul"
  | div => "Div"
  | mod => "Mod"
  | and => "And"
  | or => "Or"
  | xor => "Xor"
  | gt => "Gt"
  | lt => "Lt"
  | ge => "Ge"
  | le => "Le"
  | eq => "Eq"
  | neq => "Neq"

/-- The word of a comparison: 1 if it holds, 0 if it does not. -/
def truth (holds : Bool) : Word :=
  if holds then 1 else 0

/-- The exact value of a word. -/
def exact (w : Word) : Rat :=
  w.toInt

open Binary64 in
/-- Arithmetic is rounded in the binary64 format and truncated back to a word; division by zero
leaves no finite value and so gives 0. -/
def apply (op : Operator) (x y : Word) : Word :=
  match op with
  | add => (sum (exact x) (exact y)).truncate
  | sub => (difference (exact x) (exact y)).truncate
  | mul => (product (exact x) (exact y)).truncate
  | div => (quotient (exact x) (exact y)).truncate
  | mod => (remainder (exact x) (exact y)).truncate
  | and => x &&& y
  | or => x ||| y
  | xor => x ^^^ y
  | gt => truth (y < x)
  | lt => truth (x < y)
  | ge => truth (y ≤ x)
  | le => truth (x ≤ y)
  | eq => truth (x = y)
  | neq => truth (x ≠ y)

end Operator

end Retrace
