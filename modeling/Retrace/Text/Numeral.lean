import Retrace.Word

/-!
# Decimal numerals

* `isNumeral` : one or more decimal digits;
* `Word.ofLiteral?` : an optional `-` and a numeral, in the range of a word;
* `Size.parse` : an optional `+` and a numeral, in the range of a size, with the reason for a
  refusal.
-/

namespace Retrace

namespace Text

/-- One or more of the digits 0 to 9. -/
def isNumeral (cs : List Char) : Bool :=
  !cs.isEmpty && cs.all Char.isDigit

/-- The value of a numeral. -/
def numeralValue (cs : List Char) : Nat :=
  Nat.ofDigitChars 10 cs 0

end Text

open Text

/-- The word a literal denotes: digits, or `-` and digits, with a value in range. -/
def Word.ofLiteral? : List Char → Option Word
  | '-' :: digits => if isNumeral digits then Word.ofInt? (-(numeralValue digits)) else none
  | digits => if isNumeral digits then Word.ofInt? (numeralValue digits) else none

/-- Why a text denotes no size. -/
inductive SizeError where
  | empty
  | invalidDigit
  | tooLarge
  deriving DecidableEq, Repr

namespace SizeError

def message : SizeError → String
  | empty => "cannot parse integer from empty string"
  | invalidDigit => "invalid digit found in string"
  | tooLarge => "number too large to fit in target type"

end SizeError

namespace Size

/-- Reads digits after a number `n`. The first character that is no digit, or that makes the number
too large, decides the error. -/
def digitsFrom (n : Nat) : List Char → Except SizeError Size
  | [] => .ok (UInt64.ofNat n)
  | c :: rest =>
    if c.isDigit then
      let m := 10 * n + (c.toNat - '0'.toNat)
      if m < UInt64.size then digitsFrom m rest else .error .tooLarge
    else .error .invalidDigit

/-- Reads a size: an optional `+` and at least one digit. -/
def parse : List Char → Except SizeError Size
  | [] => .error .empty
  | ['+'] => .error .invalidDigit
  | '+' :: digits => digitsFrom 0 digits
  | digits => digitsFrom 0 digits

end Size

end Retrace
