import Mathlib.Data.List.Induction
import Mathlib.Data.Nat.Digits.Defs
import Retrace.Text.Blank
import Retrace.Text.Numeral

/-!
# Decimal literals

What a literal is and what it is worth, apart from how it is read and written.

* `Text.decimal` : the positional value of digits;
* `Literal` : digits, or `-` and digits, with the integer they stand for;
* `Word.ofLiteral?_eq_some_iff` : reading gives exactly the values of literals that fit a word;
* `Literal.repr` : the decimal form of an integer is a literal of it;
* `Text.IsWord` : characters without a blank; `Literal.isWord`.
-/

namespace Retrace

namespace Text

/-- One or more of the characters `0` to `9`. -/
def IsDigits (cs : List Char) : Prop :=
  cs ≠ [] ∧ ∀ c ∈ cs, '0'.toNat ≤ c.toNat ∧ c.toNat ≤ '9'.toNat

/-- The value of digits by position, the last one counting one. -/
def decimal (cs : List Char) : Nat :=
  Nat.ofDigits 10 (cs.reverse.map fun c => c.toNat - '0'.toNat)

/-- Characters without a blank among them, and at least one. -/
def IsWord (cs : List Char) : Prop :=
  cs ≠ [] ∧ ∀ c ∈ cs, isBlank c = false

/-- Past the space, the first blank is far beyond the tilde. -/
theorem isBlank_of_graphic {c : Char} (low : '!'.toNat ≤ c.toNat) (high : c.toNat ≤ '~'.toNat) :
    isBlank c = false := by
  simp only [Char.reduceToNat] at low high
  simp only [isBlank, Bool.or_eq_false_iff, Bool.and_eq_false_iff, decide_eq_false_iff_not, beq_eq_false_iff_ne]
  omega

theorem isNumeral_iff (cs : List Char) : isNumeral cs = true ↔ IsDigits cs := by
  simp only [isNumeral, IsDigits, Bool.and_eq_true, Bool.not_eq_true', List.isEmpty_eq_false_iff,
    List.all_eq_true, Char.isDigit_iff_toNat]

theorem numeralValue_eq (cs : List Char) : numeralValue cs = decimal cs := by
  unfold numeralValue decimal
  induction cs using List.reverseRecOn with
  | nil => rfl
  | append_singleton cs c ih =>
      rw [Nat.ofDigitChars_append, ih, Nat.ofDigitChars_cons, Nat.ofDigitChars_nil, List.reverse_append,
        List.reverse_singleton, List.singleton_append, List.map_cons, Nat.ofDigits_cons]
      exact Nat.add_comm _ _

theorem isDigits_toDigits (n : Nat) : IsDigits (Nat.toDigits 10 n) := by
  constructor
  · exact Nat.toDigits_ne_nil
  · intro c hc
    exact Char.isDigit_iff_toNat.1 (Nat.isDigit_of_mem_toDigits (by decide) (by decide) hc)

theorem decimal_toDigits (n : Nat) : decimal (Nat.toDigits 10 n) = n := by
  rw [← numeralValue_eq]
  exact Nat.ofDigitChars_ten_toDigits

end Text

open Text

/-- A literal and the integer it stands for. -/
inductive Literal : List Char → Int → Prop
  | plain {digits : List Char} : IsDigits digits → Literal digits (decimal digits)
  | negative {digits : List Char} : IsDigits digits → Literal ('-' :: digits) (-(decimal digits))

namespace Word

theorem ofInt?_eq_some_iff {n : Int} {v : Word} : ofInt? n = some v ↔ v.toInt = n := by
  unfold ofInt?
  constructor
  · intro h
    split at h
    · next range =>
      cases h
      exact Int32.toInt_ofInt_of_le range.1 (Int.lt_add_one_of_le range.2)
    · exact absurd h (by simp)
  · rintro rfl
    rw [if_pos ⟨v.minValue_le_toInt, v.toInt_le⟩, Int32.ofInt_toInt]

/-- Reading a word accepts the literals that are in range, at their value. -/
theorem ofLiteral?_eq_some_iff {w : List Char} {v : Word} :
    ofLiteral? w = some v ↔ Literal w v.toInt := by
  constructor
  · intro h
    unfold ofLiteral? at h
    split at h
    · next digits =>
      split at h
      · next numeral =>
        rw [ofInt?_eq_some_iff.1 h, numeralValue_eq]
        exact .negative ((isNumeral_iff digits).1 numeral)
      · exact absurd h (by simp)
    · split at h
      · next numeral =>
        rw [ofInt?_eq_some_iff.1 h, numeralValue_eq]
        exact .plain ((isNumeral_iff w).1 numeral)
      · exact absurd h (by simp)
  · intro h
    generalize hn : v.toInt = n at h
    cases h with
    | plain digits =>
        unfold ofLiteral?
        split
        · -- a sign is no digit
          exact absurd (digits.2 '-' (by simp)) (by decide)
        · rw [if_pos ((isNumeral_iff w).2 digits), numeralValue_eq]
          exact ofInt?_eq_some_iff.2 hn
    | @negative cs digits =>
        change (if isNumeral cs then ofInt? (-(numeralValue cs : Nat)) else none) = some v
        rw [if_pos ((isNumeral_iff cs).2 digits), numeralValue_eq]
        exact ofInt?_eq_some_iff.2 hn

end Word

namespace Literal

theorem repr (n : Int) : Literal (Int.repr n).toList n := by
  rw [Int.repr_eq_if]
  split
  · next h =>
    have value : ((decimal (Nat.toDigits 10 n.toNat) : Nat) : Int) = n := by
      rw [decimal_toDigits]
      omega
    rw [Nat.toList_repr]
    nth_rewrite 2 [← value]
    exact .plain (isDigits_toDigits _)
  · next h =>
    have value : -((decimal (Nat.toDigits 10 (-n).toNat) : Nat) : Int) = n := by
      rw [decimal_toDigits]
      omega
    rw [String.toList_append, Nat.toList_repr]
    nth_rewrite 2 [← value]
    exact .negative (isDigits_toDigits _)

/-- A literal is a word of its own. -/
theorem isWord {w : List Char} {n : Int} (h : Literal w n) : IsWord w := by
  have digit : ∀ c : Char, '0'.toNat ≤ c.toNat ∧ c.toNat ≤ '9'.toNat → isBlank c = false :=
    fun c hc => isBlank_of_graphic (le_trans (by decide) hc.1) (le_trans hc.2 (by decide))
  cases h with
  | plain digits => exact ⟨digits.1, fun c hc => digit c (digits.2 c hc)⟩
  | negative digits =>
      refine ⟨by simp, fun c hc => ?_⟩
      rcases List.mem_cons.1 hc with rfl | hc
      · decide
      · exact digit c (digits.2 c hc)

end Literal

end Retrace
