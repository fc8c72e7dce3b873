import Retrace.Proofs.Grammar

/-!
# Programs as text and back

* `Statement.holds_text` : the text of a statement is a line that holds it, with zero in the slots it
  does not use;
* `Program.lines_text` : the text of a program is one such line a statement;
* `Source.compile_text` : compiling the text of a program gives the program back, up to the slots
  that the text does not show.
-/

namespace Retrace

open Text

/-! ## Texts of statements -/

namespace Text

/-- Words with a blank before each begin with a blank, if there are any. -/
theorem isBlank_head_spaced (ws : List (List Char)) :
    ∀ c ∈ (ws.flatMap (' ' :: ·)).head?, isBlank c = true := by
  intro c hc
  cases ws with
  | nil => exact absurd hc (by simp)
  | cons w rest =>
      rw [List.flatMap_cons, List.cons_append, List.head?_cons] at hc
      cases hc
      decide

theorem words_spaced {ws : List (List Char)} (h : ∀ w ∈ ws, IsWord w) : Words (ws.flatMap (' ' :: ·)) ws := by
  induction ws with
  | nil => exact .nil
  | cons w rest ih =>
      obtain ⟨hne, hw⟩ := h w List.mem_cons_self
      have tail := ih fun w hw => h w (List.mem_cons_of_mem _ hw)
      rw [List.flatMap_cons, List.cons_append]
      exact .blank (by decide) (.word hne hw (isBlank_head_spaced rest) tail)

end Text

theorem Opcode.isWord_mnemonic (op : Opcode) : IsWord op.mnemonic.toList := by
  obtain ⟨some_letter, letters⟩ := op.mnemonic_letters
  refine ⟨some_letter, fun c hc => ?_⟩
  have low : 'a'.toNat ≤ c.toNat := (letters c hc).1
  have high : c.toNat ≤ 'z'.toNat := (letters c hc).2
  exact isBlank_of_graphic (le_trans (by decide) low) (le_trans high (by decide))

namespace Statement

theorem toList_text (s : Statement) :
    s.text.toList = s.opcode.mnemonic.toList ++ (s.operands.map fun v => v.text.toList).flatMap (' ' :: ·) := by
  simp [text, List.flatMap_map]

theorem literal_text (v : Word) : Literal v.text.toList v.toInt :=
  Literal.repr v.toInt

theorem isWord_operands (s : Statement) : ∀ w ∈ s.operands.map fun v => v.text.toList, IsWord w := by
  intro w hw
  obtain ⟨v, -, rfl⟩ := List.mem_map.1 hw
  exact (literal_text v).isWord

theorem words_text (s : Statement) :
    Words s.text.toList (s.opcode.mnemonic.toList :: s.operands.map fun v => v.text.toList) := by
  obtain ⟨hne, hw⟩ := s.opcode.isWord_mnemonic
  rw [toList_text]
  exact .word hne hw (isBlank_head_spaced _) (words_spaced s.isWord_operands)

/-- The statement with zero in every slot past its operands. -/
def cleaned (s : Statement) : Statement := filled s.opcode s.operands

theorem operands_cleaned (s : Statement) : s.cleaned.operands = s.operands :=
  operands_filled s.length_operands

theorem canonical_cleaned (s : Statement) : s.cleaned.Canonical :=
  canonical_filled s.length_operands

/-- The text of a statement is a line that holds it, up to the slots that the text does not show. -/
theorem holds_text (s : Statement) : Source.Holds s.text.toList s.cleaned := by
  refine ⟨_, s.words_text, ?_, s.canonical_cleaned⟩
  rw [operands_cleaned, List.forall₂_map_left_iff, List.forall₂_same]
  exact fun v _ => literal_text v

theorem unbroken_text (s : Statement) : '\n' ∉ s.text.toList := by
  -- a line feed is a blank, so it is in no word, and it is not the space between words
  have blank : isBlank '\n' = true := by decide
  intro h
  rw [toList_text, List.mem_append, List.mem_flatMap] at h
  rcases h with h | ⟨w, hw, h⟩
  · rw [s.opcode.isWord_mnemonic.2 '\n' h] at blank
    exact absurd blank (by simp)
  · rcases List.mem_cons.1 h with h | h
    · exact absurd h (by decide)
    · rw [(s.isWord_operands w hw).2 '\n' h] at blank
      exact absurd blank (by simp)

end Statement

/-! ## Texts of programs -/

namespace Source

theorem lines_ended {ts : List (List Char)} (h : ∀ t ∈ ts, '\n' ∉ t) :
    lines (ts.flatMap (· ++ ['\n'])) = ts ++ [[]] := by
  unfold lines
  induction ts with
  | nil => rfl
  | cons t rest ih =>
      have tail := ih fun t ht => h t (List.mem_cons_of_mem _ ht)
      rw [List.flatMap_cons, List.append_assoc, List.singleton_append,
        List.splitOn_append_cons_self_of_not_mem (h t List.mem_cons_self), tail]
      rfl

/-- The last line of a text that ends with a line feed. -/
theorem vacant_nil : Vacant [] := ⟨[], .nil, .inl rfl⟩

end Source

namespace Program

theorem lines_text (p : Program) :
    Source.lines p.text.toList = p.statements.toList.map (fun s => s.text.toList) ++ [[]] := by
  have ended : p.text.toList = (p.statements.toList.map fun s => s.text.toList).flatMap (· ++ ['\n']) := by
    simp [text, List.flatMap_map]
  rw [ended]
  refine Source.lines_ended fun t ht => ?_
  obtain ⟨s, -, rfl⟩ := List.mem_map.1 ht
  exact s.unbroken_text

theorem denotes_text (p : Program) :
    Source.Denotes (Source.lines p.text.toList) (p.statements.toList.map Statement.cleaned) := by
  rw [lines_text]
  induction p.statements.toList with
  | nil => exact .vacant Source.vacant_nil .nil
  | cons s rest ih => exact .statement s.holds_text ih

/-- The program with zero in every slot that its text does not show. -/
def cleaned (p : Program) : Program := ⟨p.statements.map Statement.cleaned⟩

theorem toList_cleaned (p : Program) :
    p.cleaned.statements.toList = p.statements.toList.map Statement.cleaned := by
  simp [cleaned]

theorem compile_text_cleaned {p : Program} (h : p.size ≠ 0) : Source.compile p.text = .ok p.cleaned := by
  rw [Source.compile_eq_ok, toList_cleaned]
  refine ⟨p.denotes_text, ?_⟩
  simpa [size] using h

theorem compile_text_of_size_eq_zero {p : Program} (h : p.size = 0) :
    Source.compile p.text = .error .emptyProgram := by
  obtain ⟨statements⟩ := p
  obtain rfl : statements = #[] := Array.eq_empty_of_size_eq_zero h
  rfl

theorem cleaned_eq_self_iff (p : Program) : p.cleaned = p ↔ ∀ s ∈ p.statements, s.Canonical := by
  have same : p.cleaned = p ↔ p.statements.toList.map Statement.cleaned = p.statements.toList.map id := by
    rw [List.map_id, ← toList_cleaned, Array.toList_inj]
    exact ⟨congrArg statements, fun h => by cases p; simp_all [cleaned]⟩
  rw [same, List.map_inj_left]
  constructor
  · intro h s hs
    exact Statement.filled_operands.1 (h s hs.val)
  · intro h s hs
    exact Statement.filled_operands.2 (h s ⟨hs⟩)

end Program

/-! ## Canonical statements -/

namespace Statement

theorem exists_ofOperands_iff (s : Statement) : (∃ op vs, ofOperands op vs = .ok s) ↔ s.Canonical := by
  constructor
  · rintro ⟨op, vs, h⟩
    unfold ofOperands at h
    split at h
    · next count =>
      cases h
      exact canonical_filled count
    · exact absurd h (by simp)
  · intro canonical
    refine ⟨s.opcode, s.operands, ?_⟩
    rw [ofOperands, if_pos s.length_operands, filled_operands.2 canonical]

theorem exists_ofCode_iff (s : Statement) : (∃ code vs, ofCode code vs = .ok s) ↔ s.Canonical := by
  rw [← exists_ofOperands_iff]
  constructor
  · rintro ⟨code, vs, h⟩
    unfold ofCode at h
    split at h
    · exact absurd h (by simp)
    · next op _ => exact ⟨op, vs, h⟩
  · rintro ⟨op, vs, h⟩
    exact ⟨op.code, vs, by simpa [ofCode] using h⟩

end Statement

namespace Source

theorem Denotes.canonical {pieces : List (List Char)} {ss : List Statement} (h : Denotes pieces ss) :
    ∀ s ∈ ss, s.Canonical := by
  induction h with
  | nil => simp
  | vacant _ _ ih => exact ih
  | statement holds _ ih =>
      intro s hs
      rcases List.mem_cons.1 hs with rfl | hs
      · obtain ⟨_, _, _, canonical⟩ := holds
        exact canonical
      · exact ih s hs

/-- **Programs as text and back.** The text of a program with a statement compiles, to a program
with the same instructions and operands and zero in the other slots, so to the program itself
exactly if its statements are canonical. Those are the statements that construction gives, and all
that compilation gives. The text of the empty program is refused. -/
theorem compile_text (p : Program) :
    (p.size ≠ 0 →
      (∃ q, compile p.text = .ok q ∧ q.size = p.size ∧
        ∀ (i : Nat) (s : Statement), p.statements[i]? = some s →
          ∃ s', q.statements[i]? = some s' ∧ s'.opcode = s.opcode ∧ s'.operands = s.operands ∧ s'.Canonical) ∧
      (compile p.text = .ok p ↔ ∀ s ∈ p.statements, s.Canonical)) ∧
    (p.size = 0 → compile p.text = .error .emptyProgram) ∧
    (∀ s, (∃ op vs, Statement.ofOperands op vs = .ok s) ↔ s.Canonical) ∧
    (∀ s, (∃ code vs, Statement.ofCode code vs = .ok s) ↔ s.Canonical) ∧
    ∀ text q, compile text = .ok q → ∀ s ∈ q.statements, s.Canonical := by
  refine ⟨fun some_statement => ⟨?_, ?_⟩, p.compile_text_of_size_eq_zero, Statement.exists_ofOperands_iff,
    Statement.exists_ofCode_iff, ?_⟩
  · refine ⟨p.cleaned, p.compile_text_cleaned some_statement, by simp [Program.size, Program.cleaned], ?_⟩
    intro i s hs
    refine ⟨s.cleaned, ?_, rfl, s.operands_cleaned, s.canonical_cleaned⟩
    rw [Program.cleaned, Array.getElem?_map, hs]
    rfl
  · rw [p.compile_text_cleaned some_statement, Except.ok.injEq, Program.cleaned_eq_self_iff]
  · intro text q compiles s hs
    exact (compile_eq_ok.1 compiles).1.canonical s hs.val

/-- The least word is written and read back; the slot that a jump does not use is lost. -/
theorem compile_text_spareSlot :
    let p : Program := ⟨#[⟨.jmpC, -2147483648, 7, 0⟩]⟩
    p.size ≠ 0 ∧ (∃ q, compile p.text = .ok q ∧ q.size = p.size) ∧ compile p.text ≠ .ok p := by
  intro p
  have some_statement : p.size ≠ 0 := by decide
  obtain ⟨⟨q, compiles, same, -⟩, itself⟩ := (compile_text p).1 some_statement
  have spare : ¬ Statement.Canonical ⟨.jmpC, -2147483648, 7, 0⟩ := by decide
  have inside : ⟨.jmpC, -2147483648, 7, 0⟩ ∈ p.statements := by simp [p]
  exact ⟨some_statement, ⟨q, compiles, same⟩, fun h => spare (itself.1 h _ inside)⟩

end Source

end Retrace
