import Retrace.Proofs.FirstFault

/-!
# Sources put together

What a source compiles to follows from what its parts compile to: statements are put one after the
other, the first bad line decides, and errors further down count the lines above them.

* `Source.lines_joined`, `Source.length_lines` : the lines of two texts with a line feed between them;
* `CompileError.lowered` : an error with the lines from a number on moved down;
  `Source.readLines_lowered` : reading the same lines further down;
* `Source.readLines_inserted` : vacant lines in between move what is below them;
* `Source.Yields` : the statements of a text without a bad line; `Source.yields_or_fails`;
* `Source.Recast` : a carriage return put in front of line feeds; `Source.compile_recast`;
* `Source.compile_joined` : compilation of a text from its parts.
-/

namespace Retrace

/-- The error with every line from `first` on moved down by `count`. -/
def CompileError.lowered (first count : Nat) : CompileError → CompileError
  | atLine line fault => atLine (if line < first then line else line + count) fault
  | emptyProgram => emptyProgram

namespace Source

open Text

/-! ## Lines of two texts -/

theorem lines_joined (s t : List Char) : lines (s ++ '\n' :: t) = lines s ++ lines t :=
  List.splitOnP_append_cons s t (by simp)

theorem length_lines (text : List Char) : (lines text).length = 1 + text.count '\n' := by
  unfold lines
  induction text with
  | nil => rfl
  | cons c rest ih =>
      rw [List.splitOn_cons_eq_if_modifyHead, List.count_cons]
      split_ifs with feed
      · rw [List.length_cons, ih]
        omega
      · rw [List.length_modifyHead, ih]
        omega

/-! ## Reading further down -/

theorem map_mapError {ε α β : Type} (x : Except ε α) (f : ε → ε) (g : α → β) :
    (x.mapError f).map g = (x.map g).mapError f := by
  cases x <;> rfl

/-- Lines that are read further down give the same, with their errors moved. -/
theorem readLines_lowered {first number : Nat} (h : first ≤ number) (count : Nat) (ls : List (List Char)) :
    readLines (number + count) ls = (readLines number ls).mapError (·.lowered first count) := by
  induction ls generalizing number with
  | nil => rfl
  | cons line rest ih =>
      have below := ih (show first ≤ number + 1 by omega)
      rw [Nat.add_right_comm] at below
      rw [readLines, readLines, below]
      rcases readLine line with fault | _ | s
      · show Except.error _ = Except.error (CompileError.atLine _ _)
        rw [if_neg (by omega)]
      · rfl
      · exact map_mapError _ _ _

/-- Errors above the lines that move stay where they are. -/
theorem readLines_above {first number : Nat} {ls : List (List Char)} (h : number + ls.length ≤ first)
    (count : Nat) : (readLines number ls).mapError (·.lowered first count) = readLines number ls := by
  induction ls generalizing number with
  | nil => rfl
  | cons line rest ih =>
      rw [List.length_cons] at h
      have below := ih (show number + 1 + rest.length ≤ first by omega)
      rw [readLines]
      rcases readLine line with fault | _ | s
      · show Except.error (CompileError.atLine _ _) = Except.error _
        rw [if_pos (by omega)]
      · exact below
      · show ((readLines (number + 1) rest).map _).mapError _ = (readLines (number + 1) rest).map _
        rw [← map_mapError, below]

theorem readLines_of_vacant (number : Nat) {ls : List (List Char)} (h : ∀ line ∈ ls, Vacant line) :
    readLines number ls = .ok [] := by
  induction ls generalizing number with
  | nil => rfl
  | cons line rest ih =>
      obtain ⟨vacant, others⟩ := List.forall_mem_cons.1 h
      rw [readLines, readLine_eq_none_iff.2 vacant]
      exact ih (number + 1) others

/-- Vacant lines between others change nothing but the numbers of the lines below them. -/
theorem readLines_inserted (before after : List (List Char)) {inserted : List (List Char)}
    (h : ∀ line ∈ inserted, Vacant line) :
    readLines 1 (before ++ inserted ++ after) =
      (readLines 1 (before ++ after)).mapError (·.lowered (1 + before.length) inserted.length) := by
  have top := readLines_above (Nat.le_refl (1 + before.length)) inserted.length
  have below := readLines_lowered (Nat.le_refl (1 + before.length)) inserted.length after
  rw [readLines_append, readLines_append, readLines_append, readLines_of_vacant _ h, List.length_append,
    ← Nat.add_assoc, below]
  rcases read : readLines 1 before with e | ss
  · rw [read] at top
    exact top.symm
  · show ((readLines (1 + before.length) after).mapError _).map (ss ++ [] ++ ·) = _
    rw [List.append_nil]
    exact map_mapError _ _ _

/-! ## Statements of a text -/

/-- The outcome for the statements of all lines: without any there is no program. -/
def outcome : Except CompileError (List Statement) → Except CompileError Program
  | .error e => .error e
  | .ok [] => .error .emptyProgram
  | .ok ss => .ok ⟨ss.toArray⟩

theorem compile_eq_outcome (text : String) : compile text = outcome (readLines 1 (lines text.toList)) := rfl

theorem outcome_lowered (x : Except CompileError (List Statement)) (first count : Nat) :
    outcome (x.mapError (·.lowered first count)) = (outcome x).mapError (·.lowered first count) := by
  rcases x with e | _ | ⟨s, ss⟩ <;> rfl

/-- Reading fails at a line or not at all. -/
theorem exists_atLine {number : Nat} {ls : List (List Char)} {e : CompileError}
    (h : readLines number ls = .error e) : ∃ k fault, e = .atLine k fault := by
  induction ls generalizing number with
  | nil => exact absurd h (by simp [readLines])
  | cons line rest ih =>
      rw [readLines] at h
      split at h
      · next fault _ => exact ⟨number, fault, (Except.error.inj h).symm⟩
      · exact ih h
      · rcases below : readLines (number + 1) rest with e' | ss
        · rw [below] at h
          cases h
          exact ih below
        · rw [below] at h
          cases h

theorem outcome_eq_atLine_iff {x : Except CompileError (List Statement)} {k : Nat} {fault : LineFault} :
    outcome x = .error (.atLine k fault) ↔ x = .error (.atLine k fault) := by
  rcases x with e | _ | ⟨s, ss⟩ <;> simp [outcome]

/-- The text has these statements and no bad line. -/
def Yields (text : String) (ss : List Statement) : Prop :=
  compile text = if ss = [] then .error .emptyProgram else .ok ⟨ss.toArray⟩

theorem yields_iff {text : String} {ss : List Statement} :
    Yields text ss ↔ readLines 1 (lines text.toList) = .ok ss := by
  unfold Yields
  rw [compile_eq_outcome]
  rcases read : readLines 1 (lines text.toList) with e | _ | ⟨s, rest⟩
  · obtain ⟨k, fault, rfl⟩ := exists_atLine read
    split_ifs <;> simp [outcome]
  · split_ifs with none <;> simp [outcome, none, eq_comm]
  · split_ifs with none
    · simp [outcome, none]
    · simp [outcome]

/-- A text has statements, perhaps none, or a bad line. -/
theorem yields_or_fails (text : String) :
    (∃ ss, Yields text ss) ∨ ∃ k fault, compile text = .error (.atLine k fault) := by
  rcases read : readLines 1 (lines text.toList) with e | ss
  · obtain ⟨k, fault, rfl⟩ := exists_atLine read
    exact .inr ⟨k, fault, outcome_eq_atLine_iff.2 read⟩
  · exact .inl ⟨ss, yields_iff.2 read⟩

/-! ## Line ends -/

/-- The second text is the first with a carriage return put in front of some line feeds, or of all. -/
inductive Recast : List Char → List Char → Prop
  | nil : Recast [] []
  | same {c : Char} {s t : List Char} : Recast s t → Recast (c :: s) (c :: t)
  | ended {s t : List Char} : Recast s t → Recast ('\n' :: s) ('\r' :: '\n' :: t)

/-- The lines are the same but for a carriage return at the end of some. -/
theorem Recast.lines {s t : List Char} (h : Recast s t) :
    List.Forall₂ (fun line line' => line' = line ∨ line' = line ++ ['\r']) (lines s) (lines t) := by
  induction h with
  | nil => exact .cons (.inl rfl) .nil
  | @same c s t _ ih =>
      unfold Source.lines at ih ⊢
      rw [List.splitOn_cons_eq_if_modifyHead, List.splitOn_cons_eq_if_modifyHead]
      generalize List.splitOn '\n' s = ls at ih ⊢
      generalize List.splitOn '\n' t = ls' at ih ⊢
      split_ifs with feed
      · exact .cons (.inl rfl) ih
      · cases ih with
        | nil => exact .nil
        | cons first rest =>
            refine .cons ?_ rest
            rcases first with rfl | rfl
            · exact .inl rfl
            · exact .inr rfl
  | @ended s t _ ih =>
      rw [show Source.lines ('\n' :: s) = [] :: Source.lines s from lines_joined [] s,
        show Source.lines ('\r' :: '\n' :: t) = ['\r'] :: Source.lines t from lines_joined ['\r'] t]
      exact .cons (.inr rfl) ih

theorem readLine_return (line : List Char) : readLine (line ++ ['\r']) = readLine line := by
  rw [← readLine_chomped]
  simp [chomped]

/-- Carriage returns at the ends of lines are not read. -/
theorem readLines_returns (number : Nat) {ls ls' : List (List Char)}
    (h : List.Forall₂ (fun line line' => line' = line ∨ line' = line ++ ['\r']) ls ls') :
    readLines number ls' = readLines number ls := by
  induction h generalizing number with
  | nil => rfl
  | cons first _ ih =>
      rw [readLines, readLines, ih]
      rcases first with rfl | rfl
      · rfl
      · rw [readLine_return]

theorem compile_recast {text text' : String} (h : Recast text.toList text'.toList) :
    compile text' = compile text := by
  rw [compile_eq_outcome, compile_eq_outcome, readLines_returns 1 h.lines]

/-! ## Parts -/

/-- A line feed between two texts ends the last line of the first and counts as one more above the
second. -/
theorem readLines_joined (t₁ t₂ : String) :
    readLines 1 (lines (t₁ ++ "\n" ++ t₂).toList) =
      (readLines 1 (lines t₁.toList)).bind fun ss =>
        ((readLines 1 (lines t₂.toList)).mapError (·.lowered 0 (1 + t₁.toList.count '\n'))).map (ss ++ ·) := by
  have text : (t₁ ++ "\n" ++ t₂).toList = t₁.toList ++ '\n' :: t₂.toList := by
    simp [String.toList_append]
  rw [text, lines_joined, readLines_append, length_lines, readLines_lowered (Nat.zero_le 1)]

/-- **Compilation goes by parts.** Put a line feed between two texts. If the first fails at a line, the
whole fails with the same error. Else the whole has the statements of both, one after the other, if
the second has no bad line, and otherwise the error of the second, as many lines further down as the
first has. So vacant lines put in anywhere only move the errors below them, and a carriage return in
front of line feeds changes nothing. -/
theorem compile_joined :
    (∀ t₁ t₂ : String,
      let joint := t₁ ++ "\n" ++ t₂
      let above := 1 + t₁.toList.count '\n'
      (∀ k fault, compile t₁ = .error (.atLine k fault) → compile joint = .error (.atLine k fault)) ∧
      ∀ ss, Yields t₁ ss →
        (∀ ss', Yields t₂ ss' → Yields joint (ss ++ ss')) ∧
        ∀ k fault, compile t₂ = .error (.atLine k fault) →
          compile joint = .error (.atLine (k + above) fault)) ∧
    (∀ text, (∃ ss, Yields text ss) ∨ ∃ k fault, compile text = .error (.atLine k fault)) ∧
    (∀ (text text' : String) (before inserted after : List (List Char)),
      Pieces text.toList (before ++ after) → Pieces text'.toList (before ++ inserted ++ after) →
      (∀ line ∈ inserted, Vacant line) →
        compile text' = (compile text).mapError (·.lowered (1 + before.length) inserted.length)) ∧
    ∀ text text' : String, Recast text.toList text'.toList → compile text' = compile text := by
  refine ⟨fun t₁ t₂ => ?_, yields_or_fails, ?_, fun text text' => compile_recast⟩
  · intro joint above
    have parts := readLines_joined t₁ t₂
    refine ⟨fun k fault failed => ?_, fun ss yields => ⟨fun ss' yields' => ?_, fun k fault failed => ?_⟩⟩
    · rw [compile_eq_outcome, outcome_eq_atLine_iff] at failed ⊢
      rw [parts, failed]
      rfl
    · rw [yields_iff] at yields yields' ⊢
      rw [parts, yields, yields']
      rfl
    · rw [yields_iff] at yields
      rw [compile_eq_outcome, outcome_eq_atLine_iff] at failed ⊢
      rw [parts, yields, failed]
      rfl
  · intro text text' before inserted after pieces pieces' vacant
    rw [compile_eq_outcome, compile_eq_outcome, lines_eq_iff.2 pieces, lines_eq_iff.2 pieces',
      readLines_inserted before after vacant, outcome_lowered]

/-- The second text fails at its second line. The first has two lines, because the line feed at its end
makes a line of its own, and two vacant lines put in above the statement move the error again. -/
theorem compile_joined_moved :
    let fault : LineFault := .malformedOperand ""
    Yields "setc 0 1\n" [⟨.setC, 0, 1, 0⟩] ∧ compile "# nothing\nrev" = .error (.atLine 2 fault) ∧
      compile ("setc 0 1\n" ++ "\n" ++ "# nothing\nrev") = .error (.atLine 4 fault) ∧
      compile "setc 0 1\n\n# nothing\n \n#\nrev" = .error (.atLine 6 fault) := by
  intro fault
  obtain ⟨joined, -, inserted, -⟩ := compile_joined
  have above : Yields "setc 0 1\n" [⟨.setC, 0, 1, 0⟩] := by
    unfold Yields
    decide +kernel
  have failed : compile "# nothing\nrev" = .error (.atLine 2 fault) := by decide +kernel
  have whole : compile ("setc 0 1\n" ++ "\n" ++ "# nothing\nrev") = .error (.atLine 4 fault) :=
    ((joined _ _).2 _ above).2 2 fault failed
  refine ⟨above, failed, whole, ?_⟩
  have moved := inserted ("setc 0 1\n" ++ "\n" ++ "# nothing\nrev") "setc 0 1\n\n# nothing\n \n#\nrev"
    ["setc 0 1".toList, [], "# nothing".toList] [" ".toList, "#".toList] ["rev".toList]
    (lines_eq_iff.1 (by decide +kernel)) (lines_eq_iff.1 (by decide +kernel)) ?_
  · rw [moved, whole]
    rfl
  · simp only [← readLine_eq_none_iff]
    decide +kernel

end Source

end Retrace
