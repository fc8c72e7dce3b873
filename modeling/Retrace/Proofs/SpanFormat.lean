import Mathlib.Data.List.DropRight
import Retrace.Cli.SpanText
import Retrace.Proofs.Literal

/-!
# The format of spans

What a text must look like to denote a span, told without a reader: where it is cut, what counts on
either side, and which number that is.

* `Text.Stripped` : a text and what is left of it without the blanks at its ends; `Text.trim_eq_iff`;
* `SizeLiteral` : digits, or `+` and digits, with their value; `Size.parse_eq_ok_iff`;
* `Span.Cut` : the text before and after the first two dots in a row; `Span.cutAtDots_eq_some_iff`,
  `Span.exists_cut_iff`;
* `Span.Bound` : a side of a span and its number;
* `Span.parse_exact` : exactly the texts of the format are read, at their value, and every other text
  is refused for its first bad part.
-/

namespace Retrace

open Text

/-! ## Blanks at the ends -/

namespace Text

/-- What is left of a text without the blanks at its ends. -/
structure Stripped (cs core : List Char) : Prop where
  parts : ∃ before after, cs = before ++ core ++ after ∧
    (∀ c ∈ before, isBlank c = true) ∧ ∀ c ∈ after, isBlank c = true
  head : ∀ c ∈ core.head?, isBlank c = false
  last : ∀ c ∈ core.getLast?, isBlank c = false

theorem dropWhile_blank {before core : List Char} (blank : ∀ c ∈ before, isBlank c = true)
    (head : ∀ c ∈ core.head?, isBlank c = false) : (before ++ core).dropWhile isBlank = core := by
  rw [List.dropWhile_append_of_pos blank]
  cases core with
  | nil => rfl
  | cons c rest => exact List.dropWhile_cons_of_neg (by simp [head c rfl])

theorem head_dropWhile (cs : List Char) : ∀ c ∈ (cs.dropWhile isBlank).head?, isBlank c = false := by
  intro c hc
  have head := List.head?_dropWhile_not isBlank cs
  rw [hc] at head
  exact head

theorem stripped_trim (cs : List Char) : Stripped cs (trim cs) := by
  let rest := cs.dropWhile isBlank
  have front : cs.takeWhile isBlank ++ rest = cs := List.takeWhile_append_dropWhile
  have back : trim cs ++ rest.rtakeWhile isBlank = rest := List.rdropWhile_append_rtakeWhile
  refine ⟨⟨cs.takeWhile isBlank, rest.rtakeWhile isBlank, ?_, ?_, ?_⟩, ?_, ?_⟩
  · rw [List.append_assoc, back, front]
  · exact fun c hc => List.mem_takeWhile_imp hc
  · exact fun c hc => List.mem_rtakeWhile_imp hc
  · intro c hc
    apply head_dropWhile cs
    show rest.head? = some c
    rw [← back, List.head?_append, hc]
    rfl
  · intro c hc
    rw [trim, List.getLast?_reverse] at hc
    exact head_dropWhile rest.reverse c hc

theorem Stripped.trim_eq {cs core : List Char} (h : Stripped cs core) : trim cs = core := by
  obtain ⟨⟨before, after, rfl, blank, blank'⟩, head, last⟩ := h
  unfold trim
  cases core with
  | nil =>
      -- the text is all blank, and the blanks in front already take all of it
      have all : ∀ c ∈ before ++ [] ++ after, isBlank c = true := by
        simpa [or_imp, forall_and] using ⟨blank, blank'⟩
      rw [List.dropWhile_eq_nil_iff.2 all]
      rfl
  | cons c rest =>
      have head' : ∀ d ∈ (c :: rest ++ after).head?, isBlank d = false := head
      have last' : ∀ d ∈ (c :: rest).reverse.head?, isBlank d = false := by rwa [List.head?_reverse]
      rw [List.append_assoc, dropWhile_blank blank head', List.reverse_append,
        dropWhile_blank (by simpa using blank') last', List.reverse_reverse]

theorem trim_eq_iff {cs core : List Char} : trim cs = core ↔ Stripped cs core := by
  constructor
  · rintro rfl
    exact stripped_trim cs
  · exact Stripped.trim_eq

end Text

/-! ## Sizes -/

/-- Digits, or `+` and digits, and the number they stand for. -/
inductive SizeLiteral : List Char → Nat → Prop
  | plain {digits : List Char} : IsDigits digits → SizeLiteral digits (decimal digits)
  | signed {digits : List Char} : IsDigits digits → SizeLiteral ('+' :: digits) (decimal digits)

namespace SizeLiteral

theorem plus_iff {digits : List Char} {n : Nat} :
    SizeLiteral ('+' :: digits) n ↔ IsDigits digits ∧ n = decimal digits := by
  constructor
  · intro h
    cases h with
    | plain sign => exact absurd (sign.2 '+' (by simp)) (by decide)
    | signed digits => exact ⟨digits, rfl⟩
  · rintro ⟨digits, rfl⟩
    exact .signed digits

theorem iff_of_ne_plus {c : Char} {rest : List Char} {n : Nat} (h : c ≠ '+') :
    SizeLiteral (c :: rest) n ↔ IsDigits (c :: rest) ∧ n = decimal (c :: rest) := by
  constructor
  · intro literal
    cases literal with
    | plain digits => exact ⟨digits, rfl⟩
    | signed => exact absurd rfl h
  · rintro ⟨digits, rfl⟩
    exact .plain digits

end SizeLiteral

namespace Size

theorem le_ofDigitChars (n : Nat) (cs : List Char) : n ≤ Nat.ofDigitChars 10 cs n := by
  induction cs generalizing n with
  | nil => exact le_of_eq Nat.ofDigitChars_nil.symm
  | cons c rest ih =>
      rw [Nat.ofDigitChars_cons]
      exact le_trans (by omega) (ih _)

/-- Digits are read to their value after the number before them, if that stays in range. -/
theorem digitsFrom_eq_ok_iff {n : Nat} (h : n < UInt64.size) {cs : List Char} {s : Size} :
    digitsFrom n cs = .ok s ↔ (∀ c ∈ cs, c.isDigit = true) ∧ s.toNat = Nat.ofDigitChars 10 cs n := by
  induction cs generalizing n with
  | nil =>
      have value : (UInt64.ofNat n).toNat = n := UInt64.toNat_ofNat_of_lt' h
      rw [digitsFrom, Nat.ofDigitChars_nil, Except.ok.injEq, ← UInt64.toNat_inj, value, eq_comm]
      simp
  | cons c rest ih =>
      rw [digitsFrom, Nat.ofDigitChars_cons, List.forall_mem_cons]
      by_cases digit : c.isDigit = true
      · by_cases range : 10 * n + (c.toNat - '0'.toNat) < UInt64.size
        · simp only [digit, if_true, range, ih range, true_and]
        · -- the number only grows with the digits that follow
          have grows := le_ofDigitChars (10 * n + (c.toNat - '0'.toNat)) rest
          have fits := s.toNat_lt_size
          simp only [digit, if_true, range, if_false, reduceCtorEq, false_iff]
          rintro ⟨-, value⟩
          omega
      · simp [digit]

theorem digitsFrom_zero_eq_ok_iff {cs : List Char} (some_digit : cs ≠ []) {s : Size} :
    digitsFrom 0 cs = .ok s ↔ IsDigits cs ∧ s.toNat = decimal cs := by
  rw [digitsFrom_eq_ok_iff (by decide), ← numeralValue_eq, ← isNumeral_iff]
  simp [isNumeral, numeralValue, some_digit]

/-- A size is read from the literals in range, at their value. -/
theorem parse_eq_ok_iff {cs : List Char} {s : Size} : parse cs = .ok s ↔ SizeLiteral cs s.toNat := by
  rcases cs with _ | ⟨c, rest⟩
  · constructor
    · exact fun h => absurd h (by simp [parse])
    · generalize s.toNat = n
      intro h
      cases h with
      | plain digits => exact absurd rfl digits.1
  · by_cases plus : c = '+'
    · subst plus
      rw [SizeLiteral.plus_iff]
      by_cases some_digit : rest = []
      · subst some_digit
        simp [parse, IsDigits]
      · rw [parse, digitsFrom_zero_eq_ok_iff some_digit]
        exact some_digit
    · rw [SizeLiteral.iff_of_ne_plus plus, ← digitsFrom_zero_eq_ok_iff (List.cons_ne_nil c rest)]
      unfold parse
      split <;> simp_all

theorem isDigits_text (n : Size) : IsDigits n.text.toList := by
  rw [text, Nat.toList_repr]
  exact isDigits_toDigits n.toNat

theorem decimal_text (n : Size) : decimal n.text.toList = n.toNat := by
  rw [text, Nat.toList_repr, decimal_toDigits]

end Size

/-! ## Spans -/

namespace Span

/-- The text before and after the first two dots in a row. -/
structure Cut (text left right : List Char) : Prop where
  joined : text = left ++ '.' :: '.' :: right
  first : ∀ l r, text = l ++ '.' :: '.' :: r → left.length ≤ l.length

theorem cut_dots_iff {rest left right : List Char} :
    Cut ('.' :: '.' :: rest) left right ↔ left = [] ∧ right = rest := by
  constructor
  · rintro ⟨joined, first⟩
    obtain rfl : left = [] := List.length_eq_zero_iff.1 (Nat.le_zero.1 (first [] rest rfl))
    simp_all
  · rintro ⟨rfl, rfl⟩
    exact ⟨rfl, fun _ _ _ => Nat.zero_le _⟩

/-- Unless the dots stand right in front, the first character belongs to the text before them. -/
theorem cut_cons_iff {c : Char} {rest left right : List Char} (h : ∀ r, c :: rest ≠ '.' :: '.' :: r) :
    Cut (c :: rest) left right ↔ ∃ left', left = c :: left' ∧ Cut rest left' right := by
  constructor
  · rintro ⟨joined, first⟩
    cases left with
    | nil => exact absurd joined (h right)
    | cons d left =>
        obtain ⟨rfl, tail⟩ := List.cons.inj joined
        refine ⟨left, rfl, tail, fun l r other => ?_⟩
        exact Nat.le_of_succ_le_succ (first (c :: l) r (congrArg (c :: ·) other))
  · rintro ⟨left, rfl, joined, first⟩
    refine ⟨congrArg (c :: ·) joined, fun l r other => ?_⟩
    cases l with
    | nil => exact absurd other (h r)
    | cons d l => exact Nat.succ_le_succ (first l r (List.cons.inj other).2)

theorem cutAtDots_eq_some_iff {text left right : List Char} :
    cutAtDots text = some (left, right) ↔ Cut text left right := by
  fun_induction cutAtDots text generalizing left with
  | case1 rest =>
      rw [cut_dots_iff, Option.some.injEq, Prod.mk.injEq]
      exact and_congr eq_comm eq_comm
  | case2 c rest apart ih =>
      rw [cut_cons_iff (by simpa using apart)]
      constructor
      · intro h
        obtain ⟨⟨l, r⟩, found, same⟩ := Option.map_eq_some_iff.1 h
        obtain ⟨rfl, rfl⟩ := Prod.mk.inj same
        exact ⟨l, rfl, ih.1 found⟩
      · rintro ⟨l, rfl, cut⟩
        rw [ih.2 cut]
        rfl
  | case3 =>
      simp only [reduceCtorEq, false_iff]
      exact fun cut => absurd cut.joined (by simp)

/-- A text can be cut exactly if it has two dots in a row. -/
theorem exists_cut_iff {text : List Char} : (∃ left right, Cut text left right) ↔ ['.', '.'] <:+: text := by
  constructor
  · rintro ⟨left, right, cut⟩
    exact ⟨left, right, by simp [cut.joined]⟩
  · rintro ⟨l, r, rfl⟩
    -- two dots are given, and the first two are there or further to the left
    induction l with
    | nil => exact ⟨[], r, cut_dots_iff.2 ⟨rfl, rfl⟩⟩
    | cons c l ih =>
        by_cases dots : ∃ rest, c :: (l ++ ['.', '.'] ++ r) = '.' :: '.' :: rest
        · obtain ⟨rest, front⟩ := dots
          refine ⟨[], rest, ?_⟩
          rw [List.cons_append, List.cons_append, front, cut_dots_iff]
          exact ⟨rfl, rfl⟩
        · obtain ⟨left, right, cut⟩ := ih
          exact ⟨c :: left, right, (cut_cons_iff (not_exists.1 dots)).2 ⟨left, rfl, cut⟩⟩

/-- Dots do not come earlier than the first dot. -/
theorem cut_of_not_mem {left : List Char} (h : '.' ∉ left) (right : List Char) :
    Cut (left ++ '.' :: '.' :: right) left right := by
  induction left with
  | nil => exact cut_dots_iff.2 ⟨rfl, rfl⟩
  | cons c left ih =>
      rw [List.mem_cons, not_or] at h
      have apart : ∀ r, c :: (left ++ '.' :: '.' :: right) ≠ '.' :: '.' :: r :=
        fun r same => h.1 (List.cons.inj same).1.symm
      exact (cut_cons_iff apart).2 ⟨left, rfl, ih h.2⟩

/-- A side of a span, blanks at its ends apart, and its number. -/
def Bound (side : List Char) (n : Nat) : Prop :=
  ∃ core, Stripped side core ∧ SizeLiteral core n

theorem parse_trim_eq_ok_iff {side : List Char} {n : Size} :
    Size.parse (trim side) = .ok n ↔ Bound side n.toNat := by
  simp only [Bound, ← trim_eq_iff, exists_eq_left', Size.parse_eq_ok_iff]

theorem exists_parse_trim_iff {side : List Char} :
    (∃ n, Size.parse (trim side) = .ok n) ↔ ∃ n < 2 ^ 64, Bound side n := by
  simp only [parse_trim_eq_ok_iff]
  constructor
  · rintro ⟨n, bound⟩
    exact ⟨n.toNat, n.toNat_lt, bound⟩
  · rintro ⟨n, range, bound⟩
    exact ⟨UInt64.ofNat n, by rwa [UInt64.toNat_ofNat_of_lt' range]⟩

theorem parse_of_not_cut {text : List Char} (h : ¬ ['.', '.'] <:+: text) :
    parse text = .error (.noDots (String.ofList text)) := by
  have uncut : cutAtDots text = none := by
    rw [Option.eq_none_iff_forall_ne_some]
    rintro ⟨left, right⟩ found
    exact h (exists_cut_iff.1 ⟨left, right, cutAtDots_eq_some_iff.1 found⟩)
  rw [parse, uncut]

/-- The three ways a text that is cut may be read. -/
theorem parse_of_cut {text left right : List Char} (cut : Cut text left right) :
    (∃ reason, parse text = .error (.badStart (String.ofList left) reason) ∧ ¬ ∃ n < 2 ^ 64, Bound left n) ∨
    (∃ reason, parse text = .error (.badStop (String.ofList right) reason) ∧
      (∃ n < 2 ^ 64, Bound left n) ∧ ¬ ∃ n < 2 ^ 64, Bound right n) ∨
    ∃ s : Span, parse text = .ok s ∧ Bound left s.start.toNat ∧ Bound right s.stop.toNat := by
  rw [← exists_parse_trim_iff, ← exists_parse_trim_iff, parse, cutAtDots_eq_some_iff.2 cut]
  rcases start : Size.parse (trim left) with reason | n
  · exact .inl ⟨reason, by simp [start]⟩
  · rcases stop : Size.parse (trim right) with reason | k
    · exact .inr (.inl ⟨reason, by simp [start, stop]⟩)
    · exact .inr (.inr ⟨⟨n, k⟩, by simp [start, stop], parse_trim_eq_ok_iff.1 start, parse_trim_eq_ok_iff.1 stop⟩)

theorem parse_eq_ok_iff_bounds {text : List Char} {s : Span} :
    parse text = .ok s ↔
      ∃ left right, Cut text left right ∧ Bound left s.start.toNat ∧ Bound right s.stop.toNat := by
  constructor
  · intro read
    by_cases dots : ['.', '.'] <:+: text
    · obtain ⟨left, right, cut⟩ := exists_cut_iff.2 dots
      refine ⟨left, right, cut, ?_⟩
      rcases parse_of_cut cut with ⟨_, refused, -⟩ | ⟨_, refused, -⟩ | ⟨s', read', bounds⟩
      · exact absurd (read.symm.trans refused) (by simp)
      · exact absurd (read.symm.trans refused) (by simp)
      · obtain rfl : s = s' := Except.ok.inj (read.symm.trans read')
        exact bounds
    · exact absurd (read.symm.trans (parse_of_not_cut dots)) (by simp)
  · rintro ⟨left, right, cut, start, stop⟩
    rw [parse, cutAtDots_eq_some_iff.2 cut]
    simp [parse_trim_eq_ok_iff.2 start, parse_trim_eq_ok_iff.2 stop]

/-! ## Spans as text and back -/

theorem bound_text (n : Size) : Bound n.text.toList n.toNat := by
  have solid := (Literal.plain n.isDigits_text).isWord.2
  refine ⟨n.text.toList, ⟨⟨[], [], by simp⟩, ?_, ?_⟩, n.decimal_text ▸ .plain n.isDigits_text⟩
  · exact fun c hc => solid c (List.mem_of_mem_head? hc)
  · exact fun c hc => solid c (List.mem_of_mem_getLast? hc)

theorem parse_text (s : Span) : parse s.text.toList = .ok s := by
  have joined : s.text.toList = s.start.text.toList ++ '.' :: '.' :: s.stop.text.toList := by
    show (s.start.text ++ ".." ++ s.stop.text).toList = _
    simp
  have no_dot : '.' ∉ s.start.text.toList :=
    fun dot => absurd (s.start.isDigits_text.2 '.' dot) (by decide)
  rw [parse_eq_ok_iff_bounds]
  refine ⟨_, _, ?_, bound_text s.start, bound_text s.stop⟩
  rw [joined]
  exact cut_of_not_mem no_dot _

/-- **The format of spans.** A text denotes a span exactly if it has two dots in a row and, cut at the
first of them, each side is, blanks at its ends apart, an optional `+` and digits, whose values are the
bounds. Every other text is refused: one without two dots for that, any other one for the side before
the dots if that is no number below `2 ^ 64`, and for the side after them if only that is none. The
text of every span denotes the span, also if it ends before it starts. -/
theorem parse_exact (text : List Char) :
    (∀ s, parse text = .ok s ↔
      ∃ left right, Cut text left right ∧ Bound left s.start.toNat ∧ Bound right s.stop.toNat) ∧
    (parse text = .error (.noDots (String.ofList text)) ↔ ¬ ['.', '.'] <:+: text) ∧
    (∀ left right, Cut text left right →
      ((∃ reason, parse text = .error (.badStart (String.ofList left) reason)) ↔
        ¬ ∃ n < 2 ^ 64, Bound left n) ∧
      ((∃ reason, parse text = .error (.badStop (String.ofList right) reason)) ↔
        (∃ n < 2 ^ 64, Bound left n) ∧ ¬ ∃ n < 2 ^ 64, Bound right n)) ∧
    ∀ s : Span, parse s.text.toList = .ok s := by
  refine ⟨fun s => parse_eq_ok_iff_bounds, ⟨fun refused dots => ?_, parse_of_not_cut⟩, ?_, parse_text⟩
  · obtain ⟨left, right, cut⟩ := exists_cut_iff.2 dots
    rcases parse_of_cut cut with ⟨_, read, -⟩ | ⟨_, read, -⟩ | ⟨_, read, -⟩ <;>
      exact absurd (refused.symm.trans read) (by simp)
  · intro left right cut
    rcases parse_of_cut cut with ⟨reason, read, bad⟩ | ⟨reason, read, good, bad⟩ | ⟨s, read, start, stop⟩
    · simp only [read, bad]
      simp
    · simp only [read, good, bad]
      simp
    · have good : ∃ n < 2 ^ 64, Bound left n := ⟨_, s.start.toNat_lt, start⟩
      have good' : ∃ n < 2 ^ 64, Bound right n := ⟨_, s.stop.toNat_lt, stop⟩
      simp only [read, good, good']
      simp

/-- Of three dots the first two count: the third is a fault of the side after them. Blanks and a `+`
are none, and a span may end before it starts. -/
theorem parse_exact_threeDots :
    Cut " +7...3".toList " +7".toList ".3".toList ∧
      (∃ reason, parse " +7...3".toList = .error (.badStop ".3" reason)) ∧ parse "7..3".toList = .ok ⟨7, 3⟩ := by
  have cut : Cut " +7...3".toList " +7".toList ".3".toList := cutAtDots_eq_some_iff.1 (by decide)
  have good : ∃ n < 2 ^ 64, Bound " +7".toList n := exists_parse_trim_iff.1 ⟨7, by decide⟩
  have bad : ¬ ∃ n < 2 ^ 64, Bound ".3".toList n := by
    have refused : Size.parse (trim ".3".toList) = .error .invalidDigit := by decide
    rw [← exists_parse_trim_iff, refused]
    simp
  obtain ⟨-, -, blamed, -⟩ := parse_exact " +7...3".toList
  obtain ⟨-, -, -, back⟩ := parse_exact []
  exact ⟨cut, ((blamed _ _ cut).2).2 ⟨good, bad⟩, back ⟨7, 3⟩⟩

end Span

end Retrace
