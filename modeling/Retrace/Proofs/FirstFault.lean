import Retrace.Proofs.Grammar

/-!
# The first bad line

What a source that does not compile is refused for, told without a reader: the line that decides, what
is wrong with it, and that nothing below it counts.

* `Source.InRange` : a literal of a word;
* `Source.Refused` : what is wrong with the words of a line, the mnemonic before the operands and
  the operands before their number; `Source.readLine_of_refused`, `Source.exists_refused`;
* `Source.FirstBad` : the first line that is neither vacant nor a statement;
  `Source.readLines_of_firstBad`;
* `Source.chomped` : a line without the carriage return in front of its line feed;
* `Source.compile_eq_error_iff_first_bad` : a source fails with the fault of its first bad line, and
  so does every source that begins with the same lines.
-/

namespace Retrace.Source

open Text

/-! ## A bad line -/

/-- A literal whose value fits a word. -/
def InRange (w : List Char) : Prop :=
  ∃ n : Int, Literal w n ∧ -2 ^ 31 ≤ n ∧ n ≤ 2 ^ 31 - 1

/-- What is wrong with the words after a mnemonic. A bare mnemonic comes first, then the leftmost word
that is no literal in range, then the number of the words. -/
inductive Misapplied (op : Opcode) : List (List Char) → LineFault → Prop
  | bare : Misapplied op [] (.malformedOperand "")
  | operand {before after : List (List Char)} {w : List Char} :
    (∀ v ∈ before, InRange v) → ¬ InRange w →
      Misapplied op (before ++ w :: after) (.malformedOperand (String.ofList w))
  | count {ws : List (List Char)} :
    ws ≠ [] → (∀ w ∈ ws, InRange w) → ws.length ≠ op.arity → Misapplied op ws (.arityMismatch op ws.length)

/-- What is wrong with the words of a line, the first of them before the others. -/
inductive Refused : List (List Char) → LineFault → Prop
  | unknown {w : List Char} {ws : List (List Char)} :
    (∀ op : Opcode, op.mnemonic.toList ≠ w) → Refused (w :: ws) (.unknownInstruction (String.ofList w))
  | misapplied {op : Opcode} {ws : List (List Char)} {fault : LineFault} :
    Misapplied op ws fault → Refused (op.mnemonic.toList :: ws) fault

theorem inRange_iff {w : List Char} : InRange w ↔ ∃ v, Word.ofLiteral? w = some v := by
  simp only [Word.ofLiteral?_eq_some_iff]
  refine ⟨fun ⟨n, value, low, high⟩ => ⟨Int32.ofInt n, ?_⟩, fun ⟨v, value⟩ => ⟨_, value, v.le_toInt, ?_⟩⟩
  · rwa [Int32.toInt_ofInt_of_le low (by omega)]
  · have := v.toInt_lt
    omega

theorem ofLiteral?_eq_none_iff {w : List Char} : Word.ofLiteral? w = none ↔ ¬ InRange w := by
  rw [inRange_iff, Option.eq_none_iff_forall_ne_some, not_exists]

theorem readOperands_of_inRange {w : List Char} (h : InRange w) (rest : List (List Char)) :
    ∃ v, readOperands (w :: rest) = (readOperands rest).map (v :: ·) := by
  obtain ⟨v, hv⟩ := inRange_iff.1 h
  refine ⟨v, ?_⟩
  rw [readOperands, hv]

theorem readOperands_of_not_inRange {w : List Char} (h : ¬ InRange w) (rest : List (List Char)) :
    readOperands (w :: rest) = .error (.malformedOperand (String.ofList w)) := by
  rw [readOperands, ofLiteral?_eq_none_iff.2 h]

/-- As many operands are read as there are words, if all of these are literals in range. -/
theorem readOperands_of_forall {ws : List (List Char)} (h : ∀ w ∈ ws, InRange w) :
    ∃ vs, readOperands ws = .ok vs ∧ vs.length = ws.length := by
  induction ws with
  | nil => exact ⟨[], rfl, rfl⟩
  | cons w rest ih =>
      obtain ⟨fits, others⟩ := List.forall_mem_cons.1 h
      obtain ⟨v, read⟩ := readOperands_of_inRange fits rest
      obtain ⟨vs, hvs, length⟩ := ih others
      refine ⟨v :: vs, ?_, ?_⟩
      · rw [read, hvs]
        rfl
      · rw [List.length_cons, List.length_cons, length]

/-- The first word that is no literal in range is the one refused. -/
theorem readOperands_of_bad {before after : List (List Char)} {w : List Char} (h : ∀ v ∈ before, InRange v)
    (bad : ¬ InRange w) :
    readOperands (before ++ w :: after) = .error (.malformedOperand (String.ofList w)) := by
  induction before with
  | nil => exact readOperands_of_not_inRange bad after
  | cons u before ih =>
      obtain ⟨fits, others⟩ := List.forall_mem_cons.1 h
      obtain ⟨v, read⟩ := readOperands_of_inRange fits (before ++ w :: after)
      rw [List.cons_append, read, ih others]
      rfl

/-- The items of a list all have a property, or there is a first one that has not. -/
theorem forall_or_first {α : Type} (P : α → Prop) (items : List α) :
    (∀ x ∈ items, P x) ∨
      ∃ before x after, items = before ++ x :: after ∧ (∀ y ∈ before, P y) ∧ ¬ P x := by
  induction items with
  | nil => exact .inl (by simp)
  | cons x rest ih =>
      by_cases fits : P x
      · rcases ih with all | ⟨before, y, after, rfl, fine, bad⟩
        · exact .inl (List.forall_mem_cons.2 ⟨fits, all⟩)
        · exact .inr ⟨x :: before, y, after, rfl, List.forall_mem_cons.2 ⟨fits, fine⟩, bad⟩
      · exact .inr ⟨[], x, rest, rfl, by simp, fits⟩

theorem readStatement_of_misapplied {op : Opcode} {ws : List (List Char)} {fault : LineFault}
    (h : Misapplied op ws fault) : readStatement op ws = .error fault := by
  unfold readStatement
  cases h with
  | bare => rfl
  | operand fine bad => simp [readOperands_of_bad fine bad]
  | count some_word fine number =>
      obtain ⟨vs, read, length⟩ := readOperands_of_forall fine
      simp [read, length, some_word, number]

/-- A mnemonic and the words after it are a statement or misapplied. -/
theorem exists_misapplied {op : Opcode} {ws : List (List Char)}
    (h : ¬ (ws.length = op.arity ∧ ∀ w ∈ ws, InRange w)) : ∃ fault, Misapplied op ws fault := by
  rcases forall_or_first InRange ws with all | ⟨before, w, after, rfl, fine, bad⟩
  · by_cases some_word : ws = []
    · subst some_word
      exact ⟨_, .bare⟩
    · exact ⟨_, .count some_word all fun number => h ⟨number, all⟩⟩
  · exact ⟨_, .operand fine bad⟩

theorem readLine_of_refused {line : List Char} {ws : List (List Char)} {fault : LineFault}
    (solid : ¬ Vacant line) (hws : Words line ws) (h : Refused ws fault) : readLine line = .error fault := by
  have no_comment : ∀ w rest, ws = w :: rest → w.head? ≠ some '#' := by
    intro w rest first hash
    obtain ⟨comment, rfl⟩ := List.head?_eq_some_iff.1 hash
    exact solid ⟨ws, hws, .inr ⟨comment, rest, first⟩⟩
  unfold readLine
  rw [hws.eq]
  cases h with
  | @unknown w rest unknown =>
      have absent : Opcode.ofMnemonic? (String.ofList w) = none := by
        rw [Option.eq_none_iff_forall_ne_some]
        intro op found
        apply unknown op
        rw [Opcode.ofMnemonic?_eq_some_iff.1 found, String.toList_ofList]
      simp only [if_neg (no_comment w rest rfl), absent]
  | @misapplied op rest _ misapplied =>
      simp only [if_neg (no_comment _ rest rfl), String.ofList_toList, op.ofMnemonic?_mnemonic,
        readStatement_of_misapplied misapplied]
      rfl

/-- A line that is neither vacant nor a statement is refused for something. -/
theorem exists_refused {line : List Char} (solid : ¬ Vacant line) (bad : ¬ IsStatement line) :
    ∃ ws fault, Words line ws ∧ Refused ws fault := by
  obtain ⟨ws, hws⟩ := exists_words line
  rcases ws with _ | ⟨w, rest⟩
  · exact absurd ⟨[], hws, .inl rfl⟩ solid
  · by_cases known : ∃ op : Opcode, op.mnemonic.toList = w
    · obtain ⟨op, rfl⟩ := known
      obtain ⟨fault, misapplied⟩ := exists_misapplied fun fits => bad ⟨op, rest, hws, fits⟩
      exact ⟨_, fault, hws, .misapplied misapplied⟩
    · exact ⟨_, _, hws, .unknown (not_exists.1 known)⟩

/-! ## The first bad line -/

/-- Line `k`, counted from 1, is the first that is neither vacant nor a statement. -/
def FirstBad (pieces : List (List Char)) (k : Nat) (line : List Char) : Prop :=
  ∃ before after, pieces = before ++ line :: after ∧ k = before.length + 1 ∧
    (∀ piece ∈ before, Vacant piece ∨ IsStatement piece) ∧ ¬ Vacant line ∧ ¬ IsStatement line

/-- Lines are read in order, and numbered through. -/
theorem readLines_append (number : Nat) (xs ys : List (List Char)) :
    readLines number (xs ++ ys) =
      (readLines number xs).bind fun ss => (readLines (number + xs.length) ys).map (ss ++ ·) := by
  induction xs generalizing number with
  | nil =>
      show readLines number ys = (readLines number ys).map ([] ++ ·)
      rcases readLines number ys with e | ss <;> rfl
  | cons x xs ih =>
      rw [List.cons_append, readLines, readLines, ih, List.length_cons,
        show number + (xs.length + 1) = number + 1 + xs.length by omega]
      rcases readLine x with fault | _ | s
      · rfl
      · rfl
      · rcases readLines (number + 1) xs with e | ss
        · rfl
        · rcases readLines (number + 1 + xs.length) ys with e | ss' <;> rfl

/-- The lines up to the first bad one fail by themselves. -/
theorem readLines_of_firstBad {pieces : List (List Char)} {k : Nat} {line : List Char}
    {ws : List (List Char)} {fault : LineFault} (first : FirstBad pieces k line) (hws : Words line ws)
    (refused : Refused ws fault) : readLines 1 (pieces.take k) = .error (.atLine k fault) := by
  obtain ⟨before, after, rfl, rfl, sound, solid, -⟩ := first
  obtain ⟨ss, denotes⟩ := exists_denotes_iff.2 sound
  have bad : readLines (1 + before.length) [line] = .error (.atLine (1 + before.length) fault) := by
    rw [readLines, readLine_of_refused solid hws refused]
  have upTo : (before ++ line :: after).take (before.length + 1) = before ++ [line] := by
    rw [List.append_cons]
    exact List.take_left' (by simp)
  rw [upTo, readLines_append, readLines_eq_ok_iff.2 denotes]
  show (readLines (1 + before.length) [line]).map (ss ++ ·) = _
  rw [bad, Nat.add_comm]
  rfl

/-- Lines that fail still fail with others below them. -/
theorem compile_of_take {text : String} {k : Nat} {e : CompileError}
    (h : readLines 1 ((lines text.toList).take k) = .error e) : compile text = .error e := by
  unfold compile
  rw [← List.take_append_drop k (lines text.toList), readLines_append, h]
  rfl

/-- Without a statement, and without a bad line, there is no program. -/
theorem compile_of_vacant {text : String} (h : ∀ piece ∈ lines text.toList, Vacant piece) :
    compile text = .error .emptyProgram := by
  obtain ⟨ss, denotes⟩ := exists_denotes_iff.2 fun piece mem => .inl (h piece mem)
  have none : ss = [] := by
    by_contra some_statement
    obtain ⟨piece, mem, statement⟩ := denotes.ne_nil_iff.1 some_statement
    exact (h piece mem).not_isStatement statement
  unfold compile
  rw [readLines_eq_ok_iff.2 denotes, none]

/-- A source that fails has a first bad line, or nothing on any line. -/
theorem exists_firstBad {text : String} {e : CompileError} (h : compile text = .error e) :
    (∀ piece ∈ lines text.toList, Vacant piece) ∨ ∃ k line, FirstBad (lines text.toList) k line := by
  rcases forall_or_first (fun piece => Vacant piece ∨ IsStatement piece) (lines text.toList) with
    sound | ⟨before, line, after, parts, sound, bad⟩
  · left
    obtain ⟨ss, denotes⟩ := exists_denotes_iff.2 sound
    by_contra some_statement
    push Not at some_statement
    obtain ⟨piece, mem, solid⟩ := some_statement
    have statement := (sound piece mem).resolve_left solid
    have ok : compile text = .ok ⟨ss.toArray⟩ :=
      compile_eq_ok.2 ⟨denotes, denotes.ne_nil_iff.2 ⟨piece, mem, statement⟩⟩
    rw [h] at ok
    exact absurd ok (by simp)
  · rw [not_or] at bad
    exact .inr ⟨_, line, before, after, parts, rfl, sound, bad⟩

theorem compile_eq_error_iff {text : String} {e : CompileError} :
    compile text = .error e ↔
      (∀ piece ∈ lines text.toList, Vacant piece) ∧ e = .emptyProgram ∨
      ∃ k line ws fault, FirstBad (lines text.toList) k line ∧ Words line ws ∧ Refused ws fault ∧
        e = .atLine k fault := by
  refine ⟨fun h => ?_, ?_⟩
  · rcases exists_firstBad h with vacant | ⟨k, line, first⟩
    · rw [compile_of_vacant vacant] at h
      exact .inl ⟨vacant, (Except.error.inj h).symm⟩
    · obtain ⟨-, -, -, -, -, solid, bad⟩ := id first
      obtain ⟨ws, fault, hws, refused⟩ := exists_refused solid bad
      rw [compile_of_take (readLines_of_firstBad first hws refused)] at h
      exact .inr ⟨k, line, ws, fault, first, hws, refused, (Except.error.inj h).symm⟩
  · rintro (⟨vacant, rfl⟩ | ⟨k, line, ws, fault, first, hws, refused, rfl⟩)
    · exact compile_of_vacant vacant
    · exact compile_of_take (readLines_of_firstBad first hws refused)

/-! ## What follows the first bad line -/

/-- A line without the carriage return that belongs to its end. -/
def chomped (piece : List Char) : List Char :=
  if piece.getLast? = some '\r' then piece.dropLast else piece

theorem words_chomped (piece : List Char) : words (chomped piece) = words piece := by
  unfold chomped
  split_ifs with last
  · obtain ⟨front, rfl⟩ := List.getLast?_eq_some_iff.1 last
    rw [List.dropLast_concat, words_append_blank (by decide)]
    exact (List.append_nil _).symm
  · rfl

theorem readLine_chomped (piece : List Char) : readLine (chomped piece) = readLine piece := by
  unfold readLine
  rw [words_chomped]

theorem readLines_chomped (number : Nat) (pieces : List (List Char)) :
    readLines number (pieces.map chomped) = readLines number pieces := by
  induction pieces generalizing number with
  | nil => rfl
  | cons piece rest ih => rw [List.map_cons, readLines, readLines, readLine_chomped, ih]

/-- **The first bad line.** Split a text at its line feeds, which there is one way to do. The text
fails with the error that there is no program exactly if all its lines are vacant, and with an error at
a line exactly if this is the first line that is neither vacant nor a statement and the error is what
its words are refused for. Every text with the same lines up to there fails with the same error. -/
theorem compile_eq_error_iff_first_bad (text : String) :
    ∃ pieces, (∀ other, Pieces text.toList other ↔ other = pieces) ∧
      (∀ e, compile text = .error e ↔
        (∀ piece ∈ pieces, Vacant piece) ∧ e = .emptyProgram ∨
        ∃ k line ws fault, FirstBad pieces k line ∧ Words line ws ∧ Refused ws fault ∧
          e = .atLine k fault) ∧
      ∀ e k, compile text = .error e → e.line? = some k →
        ∀ text' pieces', Pieces text'.toList pieces' →
          (pieces'.map chomped).take k = (pieces.map chomped).take k → compile text' = .error e := by
  refine ⟨lines text.toList, fun other => lines_eq_iff.symm.trans eq_comm, fun e => compile_eq_error_iff, ?_⟩
  intro e k failed numbered text' pieces' split same
  rcases compile_eq_error_iff.1 failed with ⟨-, rfl⟩ | ⟨k, line, ws, fault, first, hws, refused, rfl⟩
  · exact absurd numbered (by simp [CompileError.line?])
  · obtain rfl : k = _ := Option.some.inj numbered
    apply compile_of_take
    rw [lines_eq_iff.2 split, ← readLines_chomped, List.map_take, same, ← List.map_take, readLines_chomped]
    exact readLines_of_firstBad first hws refused

end Retrace.Source
