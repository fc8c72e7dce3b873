import Retrace.Proofs.FallThrough
import Retrace.Proofs.StepLine

/-!
# One line, one step

What a line was printed from can be read off it again. Its words are taken from the left: the number
and the counters, a mnemonic that says how many operands follow, writes as long as a word begins with
a bracket, and the strays.

* `Text.repr_inj`, `Word.text_inj`, `Size.text_inj` : numbers from their decimal form;
* `Write.shown_inj`, `Record.shownStrays_inj` : a write, and the strays, from their words;
* `Record.writes_and_strays_inj` : where the writes end is seen from the words;
* `Record.line_eq_iff` : two lines are the same exactly if all that is shown is the same.
-/

namespace Retrace

open Text

/-! ## Numbers -/

theorem Text.repr_inj {m n : Nat} (h : m.repr.toList = n.repr.toList) : m = n := by
  rw [Nat.toList_repr, Nat.toList_repr] at h
  rw [← decimal_toDigits m, h, decimal_toDigits]

theorem Size.text_inj {a b : Size} (h : a.text.toList = b.text.toList) : a = b :=
  UInt64.toNat_inj.1 (repr_inj h)

theorem Word.text_inj {v w : Word} (h : v.text.toList = w.text.toList) : v = w := by
  have read (u : Word) : Word.ofLiteral? u.text.toList = some u :=
    Word.ofLiteral?_eq_some_iff.2 (Literal.repr u.toInt)
  have same := read v
  rw [h, read w] at same
  exact (Option.some.inj same).symm

theorem Word.texts_inj {vs ws : List Word}
    (h : vs.map (fun v => v.text.toList) = ws.map fun v => v.text.toList) : vs = ws :=
  List.map_injective_iff.2 (fun _ _ => Word.text_inj) h

/-! ## Writes and strays -/

theorem OrderedSet.eq_of_toList {α : Type} [LT α] {s t : OrderedSet α} (h : s.toList = t.toList) : s = t := by
  cases s
  cases t
  congr

theorem Write.shown_inj {w w' : Write} (h : w.shown = w'.shown) : w = w' := by
  obtain ⟨address, new, old⟩ := w
  obtain ⟨address', new', old'⟩ := w'
  simp only [shown, List.cons.injEq, List.append_cancel_right_eq, true_and, and_true] at h
  obtain ⟨address, old, new⟩ := h
  rw [Size.text_inj address, Word.text_inj old, Word.text_inj new]

namespace Record

theorem shownStrays_inj {as bs : List Word} (h : shownStrays as = shownStrays bs) : as = bs := by
  cases as with
  | nil =>
      cases bs with
      | nil => rfl
      | cons b bs => exact absurd h (by simp [shownStrays])
  | cons a as =>
      cases bs with
      | nil => exact absurd h (by simp [shownStrays])
      | cons b bs =>
          simp only [shownStrays, List.isEmpty_cons, Bool.false_eq_true, if_false, List.cons.injEq, true_and] at h
          exact Word.texts_inj h

/-- The strays do not begin as a write does. -/
theorem shownStrays_ne (as : List Word) (w : Write) (rest : List (List Char)) :
    shownStrays as ≠ w.shown ++ rest := by
  cases as with
  | nil => simp [shownStrays, Write.shown]
  | cons a as => simp [shownStrays, Write.shown]

/-- Where the writes end is seen from the words. -/
theorem writes_and_strays_inj {ws ws' : List Write} {as bs : List Word}
    (h : ws.flatMap Write.shown ++ shownStrays as = ws'.flatMap Write.shown ++ shownStrays bs) :
    ws = ws' ∧ as = bs := by
  -- a write takes four words, and the next word tells whether another one follows
  induction ws generalizing ws' with
  | nil =>
      cases ws' with
      | nil => exact ⟨rfl, shownStrays_inj h⟩
      | cons w ws' =>
          rw [List.flatMap_cons, List.append_assoc] at h
          exact absurd h (shownStrays_ne as w _)
  | cons w ws ih =>
      cases ws' with
      | nil =>
          rw [List.flatMap_cons, List.append_assoc] at h
          exact absurd h.symm (shownStrays_ne bs w _)
      | cons w' ws' =>
          rw [List.flatMap_cons, List.flatMap_cons, List.append_assoc, List.append_assoc] at h
          obtain ⟨first, rest⟩ := List.append_inj h rfl
          obtain ⟨rfl, rfl⟩ := ih rest
          exact ⟨congrArg (· :: ws) (Write.shown_inj first), rfl⟩

/-! ## Lines -/

/-- The two steps are alike in all that a line shows: not in the spare slots of the statement, nor in the
addresses inside the memory that were touched. -/
structure Alike (x y : Record) : Prop where
  before : x.before = y.before
  after : x.after = y.after
  opcode : x.statement.opcode = y.statement.opcode
  operands : x.statement.operands = y.statement.operands
  commit : x.commit = y.commit
  outOfBounds : x.footprint.outOfBounds = y.footprint.outOfBounds

theorem Alike.line_eq {x y : Record} (h : Alike x y) (i : Nat) : x.line i = y.line i := by
  have jumped : x.jumped = y.jumped := by rw [jumped, jumped, h.before, h.after]
  have arrow : x.arrow = y.arrow := by rw [arrow, arrow, jumped]
  have statement : x.statement.text = y.statement.text := by
    rw [Statement.text, Statement.text, h.opcode, h.operands]
  have strays : x.strays = y.strays := by rw [strays, strays, h.outOfBounds]
  rw [line, line, h.before, h.after, arrow, statement, h.commit, strays]

theorem alike_of_line_eq {i j : Nat} {x y : Record} (h : x.line i = y.line j) : i = j ∧ Alike x y := by
  have same := congrArg (fun line => words line.toList) h
  simp only [words_line_eq, List.cons.injEq] at same
  obtain ⟨number, before, -, after, mnemonic, rest⟩ := same
  have opcode : x.statement.opcode = y.statement.opcode := by
    have known := x.statement.opcode.ofMnemonic?_mnemonic
    rw [String.toList_inj.1 mnemonic, Opcode.ofMnemonic?_mnemonic] at known
    exact (Option.some.inj known).symm
  -- the instruction tells how many of the words are operands
  have count : (x.statement.operands.map fun v => v.text.toList).length =
      (y.statement.operands.map fun v => v.text.toList).length := by
    rw [List.length_map, List.length_map, Statement.length_operands, Statement.length_operands, opcode]
  obtain ⟨operands, rest⟩ := List.append_inj rest count
  obtain ⟨records, strays⟩ := writes_and_strays_inj rest
  exact ⟨repr_inj number, Word.text_inj before, Word.text_inj after, opcode, Word.texts_inj operands,
    congrArg Commit.mk records, OrderedSet.eq_of_toList strays⟩

theorem arrow_eq (r : Record) : r.arrow = if r.after = r.before.next then "->" else "=>" := by
  unfold arrow jumped
  by_cases next : r.after = r.before.next
  · simp [next]
  · simp [next]

/-- **One line, one step.** Two lines are the same exactly if they have the same number and the steps
are alike: in the counters, the instruction and its operands, all writes in order with their addresses,
old and new values, and the addresses outside the memory. So numbers that are wider than their columns
do no harm. The third word is a double arrow exactly if the counter after the step is not the one that
follows the counter before it, which stays at the largest word, and a plain arrow exactly if it is. -/
theorem line_eq_iff (i j : Nat) (x y : Record) :
    (x.line i = y.line j ↔ i = j ∧ Alike x y) ∧
    ((words (x.line i).toList)[2]? = some "=>".toList ↔
      x.after.toInt ≠ min (x.before.toInt + 1) (2 ^ 31 - 1)) ∧
    ((words (x.line i).toList)[2]? = some "->".toList ↔
      x.after.toInt = min (x.before.toInt + 1) (2 ^ 31 - 1)) := by
  have third : (words (x.line i).toList)[2]? = some x.arrow.toList := by rw [words_line_eq]; rfl
  have next : x.after = x.before.next ↔ x.after.toInt = min (x.before.toInt + 1) (2 ^ 31 - 1) := by
    rw [← Int32.toInt_inj, Word.toInt_next]
  refine ⟨⟨alike_of_line_eq, ?_⟩, ?_⟩
  · rintro ⟨rfl, alike⟩
    exact alike.line_eq i
  · rw [third, Option.some.injEq, Option.some.injEq, String.toList_inj, String.toList_inj, arrow_eq, Ne, ← next]
    split_ifs with follows <;> simp [follows]

end Record

end Retrace
