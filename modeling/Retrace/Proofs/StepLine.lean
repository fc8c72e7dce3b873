import Retrace.Cli.Report
import Retrace.Proofs.RoundTrip

/-!
# Lines of a trace

A recorded step is printed as one line, whose first words are its number, the counter before it, an
arrow and the counter after it. The words of the statement, of the writes and of the strays follow.

* `Text.words_padLeft`, `Text.words_padRight` : padding adds no word;
* `Write.shown`, `Record.shownStrays` : the words of a write and of the strays;
* `Record.words_line_eq` : the words of the line of a step; `Record.words_line` : the first of them;
* `Record.unbroken_line` : there is no line feed in it.
-/

namespace Retrace

open Text

namespace Text

theorem unbroken_of_isWord {w : List Char} (h : IsWord w) : '\n' ∉ w := by
  intro broken
  have graphic : isBlank '\n' = false := h.2 _ broken
  exact absurd graphic (by decide)

theorem isWord_repr (n : Nat) : IsWord n.repr.toList :=
  (Literal.repr (n : Int)).isWord

theorem isWord_text (v : Word) : IsWord v.text.toList :=
  (Literal.repr v.toInt).isWord

theorem isWord_of_all {w : List Char} (hne : w ≠ []) (all : (w.all fun c => !isBlank c) = true) : IsWord w := by
  refine ⟨hne, fun c hc => ?_⟩
  simpa using List.all_eq_true.1 all c hc

/-- Words do not run into a text that begins with a blank. -/
theorem words_append {cs ds : List Char} (h : ∀ c ∈ ds.head?, isBlank c = true) :
    words (cs ++ ds) = words cs ++ words ds := by
  cases ds with
  | nil => rw [List.append_nil, show words [] = [] from rfl, List.append_nil]
  | cons d ds =>
      have blank : isBlank d = true := h d rfl
      rw [words_append_blank blank, words_cons_blank blank]

/-! ## Padding -/

theorem words_replicate_append (k : Nat) (cs : List Char) : words (List.replicate k ' ' ++ cs) = words cs := by
  induction k with
  | zero => rfl
  | succ k ih => rw [List.replicate_succ, List.cons_append, words_cons_blank (by decide), ih]

theorem words_append_replicate (cs : List Char) (k : Nat) : words (cs ++ List.replicate k ' ') = words cs := by
  cases k with
  | zero => rw [List.replicate_zero, List.append_nil]
  | succ k =>
      have blanks : words (List.replicate k ' ') = [] := by
        have := words_replicate_append k []
        rwa [List.append_nil] at this
      rw [List.replicate_succ, words_append_blank (by decide), blanks, List.append_nil]

theorem words_padLeft {s : String} (h : IsWord s.toList) (width : Nat) :
    words (padLeft width s).toList = [s.toList] := by
  rw [padLeft, String.toList_ofList, List.leftpad, words_replicate_append, words_run h.1 h.2]

theorem words_padRight {s : String} (h : IsWord s.toList) (width : Nat) :
    words (padRight width s).toList = [s.toList] := by
  rw [padRight, String.toList_ofList, List.rightpad, words_append_replicate, words_run h.1 h.2]

theorem unbroken_padLeft {s : String} (h : IsWord s.toList) (width : Nat) :
    '\n' ∉ (padLeft width s).toList := by
  rw [padLeft, String.toList_ofList, List.leftpad, List.mem_append, List.mem_replicate]
  rintro (⟨-, blank⟩ | broken)
  · exact absurd blank (by decide)
  · exact unbroken_of_isWord h broken

theorem unbroken_padRight {s : String} (h : IsWord s.toList) (width : Nat) :
    '\n' ∉ (padRight width s).toList := by
  rw [padRight, String.toList_ofList, List.rightpad, List.mem_append, List.mem_replicate]
  rintro (broken | ⟨-, blank⟩)
  · exact unbroken_of_isWord h broken
  · exact absurd blank (by decide)

end Text

/-! ## Steps -/

theorem Write.unbroken_line (w : Write) : '\n' ∉ w.line.toList := by
  have address : '\n' ∉ w.address.text.toList := unbroken_of_isWord (isWord_repr w.address.toNat)
  have old := unbroken_of_isWord (isWord_text w.oldValue)
  have new := unbroken_of_isWord (isWord_text w.newValue)
  show '\n' ∉ ("  [" ++ w.address.text ++ "] " ++ w.oldValue.text ++ " -> " ++ w.newValue.text).toList
  simp [address, old, new]

/-- The words of a write. -/
def Write.shown (w : Write) : List (List Char) :=
  ['[' :: (w.address.text.toList ++ [']']), w.oldValue.text.toList, ['-', '>'], w.newValue.text.toList]

theorem Write.toList_line (w : Write) : w.line.toList = ' ' :: w.shown.flatMap (' ' :: ·) := by
  show ("  [" ++ w.address.text ++ "] " ++ w.oldValue.text ++ " -> " ++ w.newValue.text).toList = _
  simp [shown]

theorem Write.isWord_shown (w : Write) : ∀ word ∈ w.shown, IsWord word := by
  have brackets : isBlank '[' = false ∧ isBlank ']' = false := by decide
  have address : IsWord ('[' :: (w.address.text.toList ++ [']'])) := by
    have digits : ∀ c ∈ w.address.text.toList, isBlank c = false := (isWord_repr w.address.toNat).2
    refine ⟨by simp, fun c hc => ?_⟩
    simp only [List.mem_cons, List.mem_append, List.not_mem_nil, or_false] at hc
    rcases hc with rfl | hc | rfl
    · exact brackets.1
    · exact digits c hc
    · exact brackets.2
  have arrow : IsWord ['-', '>'] := isWord_of_all (by simp) (by decide)
  simp [shown, address, arrow, isWord_text]

theorem Write.head_lines (ws : List Write) (rest : List Char) (h : ∀ c ∈ rest.head?, isBlank c = true) :
    ∀ c ∈ ((ws.flatMap fun w => w.line.toList) ++ rest).head?, isBlank c = true := by
  have blank : isBlank ' ' = true := by decide
  cases ws with
  | nil => exact h
  | cons w ws => simp [toList_line, blank]

/-- The words of writes, one after the other. Each begins with blanks, so none runs into the next. -/
theorem Write.words_lines (ws : List Write) : words (ws.flatMap fun w => w.line.toList) = ws.flatMap shown := by
  induction ws with
  | nil => rfl
  | cons w ws ih =>
      have head : ∀ c ∈ (ws.flatMap fun w => w.line.toList).head?, isBlank c = true := by
        simpa using head_lines ws [] (by simp)
      rw [List.flatMap_cons, List.flatMap_cons, words_append head, ih, toList_line, words_cons_blank (by decide),
        (words_spaced w.isWord_shown).eq]

namespace Record

/-- The words of the addresses outside the memory. -/
def shownStrays (addresses : List Word) : List (List Char) :=
  if addresses.isEmpty then []
  else "out".toList :: "of".toList :: "bounds:".toList :: addresses.map fun address => address.text.toList

theorem isWord_shownStrays (addresses : List Word) : ∀ w ∈ shownStrays addresses, IsWord w := by
  unfold shownStrays
  split
  · simp
  · simp only [List.forall_mem_cons, List.forall_mem_map]
    refine ⟨?_, ?_, ?_, fun address _ => isWord_text address⟩
    · exact isWord_of_all (by decide) (by decide)
    · exact isWord_of_all (by decide) (by decide)
    · exact isWord_of_all (by decide) (by decide)

theorem toList_strays (r : Record) :
    r.strays.toList = if r.footprint.outOfBounds.toList.isEmpty then []
      else ' ' :: (shownStrays r.footprint.outOfBounds.toList).flatMap (' ' :: ·) := by
  unfold strays shownStrays
  split
  · rfl
  · simp [List.flatMap_map]

theorem words_strays (r : Record) : words r.strays.toList = shownStrays r.footprint.outOfBounds.toList := by
  rw [toList_strays]
  split
  · next none => rw [shownStrays, if_pos none]; rfl
  · rw [words_cons_blank (by decide), (words_spaced (isWord_shownStrays _)).eq]

theorem isWord_arrow (r : Record) : IsWord r.arrow.toList := by
  unfold arrow
  split
  · exact isWord_of_all (by decide) (by decide)
  · exact isWord_of_all (by decide) (by decide)

theorem unbroken_strays (r : Record) : '\n' ∉ r.strays.toList := by
  have address (a : Word) := unbroken_of_isWord (isWord_text a)
  unfold strays
  split
  · simp
  · simp [address]

/-- The words of a line: the number of the step, the counter before it, the arrow, the counter after it,
the statement, the writes and the strays. -/
theorem words_line_eq (i : Nat) (r : Record) :
    words (r.line i).toList =
      i.repr.toList :: r.before.text.toList :: r.arrow.toList :: r.after.text.toList ::
        r.statement.opcode.mnemonic.toList :: (r.statement.operands.map (fun v => v.text.toList) ++
          (r.commit.records.flatMap Write.shown ++ shownStrays r.footprint.outOfBounds.toList)) := by
  have parts : (r.line i).toList = (padLeft 5 i.repr).toList ++ ' ' :: ' ' :: ((padLeft 4 r.before.text).toList ++
      ' ' :: (r.arrow.toList ++ ' ' :: ((padRight 4 r.after.text).toList ++ ' ' :: ' ' ::
        (r.statement.text.toList ++ ((r.commit.records.flatMap fun w => w.line.toList) ++ r.strays.toList))))) := by
    simp [line, List.flatMap_map]
  have blank : isBlank ' ' = true := by decide
  have strays : ∀ c ∈ r.strays.toList.head?, isBlank c = true := by
    rw [toList_strays]
    split <;> simp [blank]
  have writes := Write.head_lines r.commit.records r.strays.toList strays
  rw [parts, words_append_blank blank, words_cons_blank blank, words_append_blank blank, words_append_blank blank,
    words_append_blank blank, words_padLeft (isWord_repr i), words_padLeft (isWord_text r.before),
    words_padRight (isWord_text r.after), words_run r.isWord_arrow.1 r.isWord_arrow.2, words_cons_blank blank,
    words_append writes, words_append strays, r.statement.words_text.eq, Write.words_lines, words_strays]
  rfl

/-- The first words of a line are the number of the step, the counter before it, the arrow and the
counter after it. -/
theorem words_line (i : Nat) (r : Record) : ∃ rest,
    words (r.line i).toList =
      i.repr.toList :: r.before.text.toList :: r.arrow.toList :: r.after.text.toList :: rest :=
  ⟨_, r.words_line_eq i⟩

theorem unbroken_line (i : Nat) (r : Record) : '\n' ∉ (r.line i).toList := by
  have number := unbroken_padLeft (isWord_repr i) 5
  have before := unbroken_padLeft (isWord_text r.before) 4
  have after := unbroken_padRight (isWord_text r.after) 4
  have arrow := unbroken_of_isWord r.isWord_arrow
  have statement := r.statement.unbroken_text
  have strays := r.unbroken_strays
  simp [line, number, before, after, arrow, statement, strays, Write.unbroken_line]

end Record

end Retrace
