/-!
# Machine words

* `Word` : a 32-bit two's-complement integer, the content of a cell, an operand, a counter;
* `Word.next` : the following counter value, which stays at the largest word;
* `Word.index?` : a word as a position, if it is not negative;
* `Word.text` : a word in decimal;
* `Size` : a 64-bit count or position: memory sizes, range bounds, recorded addresses.
-/

namespace Retrace

/-- A 32-bit two's-complement integer. -/
abbrev Word := Int32

/-- An unsigned 64-bit count or position. -/
abbrev Size := UInt64

namespace Word

/-- The counter after `w`. The largest word is its own successor. -/
def next (w : Word) : Word :=
  if w = Int32.maxValue then w else w + 1

/-- The position `w` names, unless it is negative. -/
def index? (w : Word) : Option Nat :=
  if 0 ≤ w.toInt then some w.toInt.toNat else none

/-- Decimal text, with a leading `-` for a negative word. -/
def text (w : Word) : String :=
  Int.repr w.toInt

def ofInt? (n : Int) : Option Word :=
  if Int32.minValue.toInt ≤ n ∧ n ≤ Int32.maxValue.toInt then some (Int32.ofInt n) else none

end Word

namespace Size

def text (n : Size) : String :=
  Nat.repr n.toNat

/-- The size of a natural number below 2^64. -/
def ofNat? (n : Nat) : Option Size :=
  if n < UInt64.size then some (UInt64.ofNat n) else none

end Size

end Retrace
