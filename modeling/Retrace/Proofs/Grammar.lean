import Mathlib.Data.List.Forall2
import Mathlib.Data.List.TakeWhile
import Mathlib.Tactic.Common
import Retrace.Proofs.Literal
import Retrace.Source

/-!
# The grammar of sources

What a source denotes, told without a reader: lines, words, literals and the statements they make.

* `Text.Words` : the maximal runs of characters that are not blank; `Text.words_eq_iff`;
* `Statement.Canonical` : zero in every slot the instruction does not use;
* `Source.Pieces` : the lines of a text; `Source.lines_eq_iff`;
* `Source.Vacant`, `Source.Holds` : a line with nothing on it, and a line with a statement;
* `Source.Denotes` : the statements of lines, in order;
* `Source.compile_eq_ok_iff_denotes` : compilation accepts exactly what the grammar allows, and
  builds exactly what it denotes.
-/

namespace Retrace

/-! ## Words -/

namespace Text

/-- The maximal runs of characters that are not blank, in order. -/
inductive Words : List Char → List (List Char) → Prop
  | nil : Words [] []
  | blank {c : Char} {cs : List Char} {ws : List (List Char)} :
    isBlank c = true → Words cs ws → Words (c :: cs) ws
  | word {w cs : List Char} {ws : List (List Char)} :
    w ≠ [] → (∀ c ∈ w, isBlank c = false) → (∀ c ∈ cs.head?, isBlank c = true) → Words cs ws →
      Words (w ++ cs) (w :: ws)

theorem words_cons_blank {c : Char} (h : isBlank c = true) (cs : List Char) : words (c :: cs) = words cs := by
  unfold words
  rw [List.splitOnP_cons_eq_if_modifyHead, if_pos h]
  rfl

theorem words_append_blank {c : Char} (h : isBlank c = true) (cs ds : List Char) :
    words (cs ++ c :: ds) = words cs ++ words ds := by
  simp only [words, List.splitOnP_append_cons cs ds h, List.filter_append]

theorem words_run {w : List Char} (hne : w ≠ []) (h : ∀ c ∈ w, isBlank c = false) : words w = [w] := by
  unfold words
  rw [List.splitOnP_eq_singleton h]
  simp [hne]

theorem Words.eq {cs : List Char} {ws : List (List Char)} (h : Words cs ws) : words cs = ws := by
  induction h with
  | nil => rfl
  | blank hc _ ih => rw [words_cons_blank hc, ih]
  | @word w cs ws hne hw stops _ ih =>
      cases cs with
      | nil => rw [List.append_nil, words_run hne hw, ← ih]; rfl
      | cons c cs =>
          have hc : isBlank c = true := stops c rfl
          rw [words_append_blank hc, words_run hne hw, ← ih, words_cons_blank hc]
          rfl

/-- Every text falls into words. -/
theorem exists_words (cs : List Char) : ∃ ws, Words cs ws := by
  -- by length: a text is empty, begins with a blank, or begins with a run that leaves a shorter rest
  induction hn : cs.length using Nat.strong_induction_on generalizing cs with
  | _ n ih =>
    cases cs with
    | nil => exact ⟨[], .nil⟩
    | cons c rest =>
        cases hc : isBlank c with
        | true =>
            obtain ⟨ws, hws⟩ := ih rest.length (by rw [← hn, List.length_cons]; omega) rest rfl
            exact ⟨ws, .blank hc hws⟩
        | false =>
            let run := (c :: rest).takeWhile fun c => !isBlank c
            let after := (c :: rest).dropWhile fun c => !isBlank c
            have parts : run ++ after = c :: rest := List.takeWhile_append_dropWhile
            have first : run = c :: rest.takeWhile fun c => !isBlank c := by simp [run, hc]
            have hlen : after.length < n := by
              have := congrArg List.length parts
              rw [List.length_append, first, List.length_cons] at this
              omega
            obtain ⟨ws, hws⟩ := ih after.length hlen after rfl
            refine ⟨run :: ws, parts ▸ .word ?_ ?_ ?_ hws⟩
            · rw [first]
              exact List.cons_ne_nil _ _
            · intro d hd
              simpa using List.mem_takeWhile_imp hd
            · intro d hd
              have := List.head?_dropWhile_not (fun c => !isBlank c) (c :: rest)
              rw [show (c :: rest).dropWhile (fun c => !isBlank c) = after from rfl, hd] at this
              simpa using this

theorem words_eq_iff {cs : List Char} {ws : List (List Char)} : words cs = ws ↔ Words cs ws := by
  constructor
  · rintro rfl
    obtain ⟨ws, hws⟩ := exists_words cs
    rwa [hws.eq]
  · exact Words.eq

end Text

/-! ## Mnemonics -/

namespace Opcode

theorem ofMnemonic?_mnemonic (op : Opcode) : ofMnemonic? op.mnemonic = some op := by
  cases op <;> decide

theorem ofMnemonic?_eq_some_iff {name : String} {op : Opcode} :
    ofMnemonic? name = some op ↔ op.mnemonic = name := by
  constructor
  · intro h
    simpa using List.find?_some h
  · rintro rfl
    exact ofMnemonic?_mnemonic op

theorem mnemonic_letters (op : Opcode) :
    op.mnemonic.toList ≠ [] ∧ ∀ c ∈ op.mnemonic.toList, 'a' ≤ c ∧ c ≤ 'z' := by
  -- as a fold over the letters: the quantifier could be decided by trying every character there is
  have letters : (op.mnemonic.toList.all fun c => decide ('a' ≤ c ∧ c ≤ 'z')) = true := by
    cases op <;> decide
  refine ⟨by cases op <;> decide, fun c hc => ?_⟩
  exact of_decide_eq_true (List.all_eq_true.1 letters c hc)

end Opcode

/-! ## Statements and their slots -/

namespace Statement

/-- Zero in every slot past the operands. -/
def Canonical (s : Statement) : Prop :=
  ∀ v ∈ s.slots.drop s.opcode.arity, v = 0

-- by the list: a search for the instance may find the one that tries every word
instance (s : Statement) : Decidable s.Canonical :=
  List.decidableBAll (· = 0) (s.slots.drop s.opcode.arity)

theorem length_operands (s : Statement) : s.operands.length = s.opcode.arity := by
  have := s.opcode.arity_le_three
  simp only [operands, slots, List.length_take, List.length_cons, List.length_nil]
  omega

/-- The instruction takes one, two or three operands. -/
theorem arity_cases (op : Opcode) : op.arity = 1 ∨ op.arity = 2 ∨ op.arity = 3 := by
  have := op.arity_pos
  have := op.arity_le_three
  omega

theorem operands_filled {op : Opcode} {vs : List Word} (h : vs.length = op.arity) :
    (filled op vs).operands = vs := by
  have bound := op.arity_le_three
  simp only [operands, slots, filled]
  rw [← h] at bound ⊢
  match vs, bound with
  | [], _ => rfl
  | [_], _ => rfl
  | [_, _], _ => rfl
  | [_, _, _], _ => rfl

theorem canonical_filled {op : Opcode} {vs : List Word} (h : vs.length = op.arity) :
    (filled op vs).Canonical := by
  have bound := op.arity_le_three
  simp only [Canonical, slots, filled]
  rw [← h] at bound ⊢
  match vs, bound with
  | [], _ => simp
  | [_], _ => simp
  | [_, _], _ => simp
  | [_, _, _], _ => simp

/-- A canonical statement is known by its instruction and operands. -/
theorem filled_operands {s : Statement} : filled s.opcode s.operands = s ↔ s.Canonical := by
  obtain ⟨op, a, b, c⟩ := s
  obtain h | h | h := arity_cases op <;>
    simp [filled, operands, slots, Canonical, h, @eq_comm Word 0]

end Statement

/-! ## Lines -/

namespace Source

open Text

/-- The pieces of a text between its line feeds. -/
structure Pieces (text : List Char) (pieces : List (List Char)) : Prop where
  some_piece : pieces ≠ []
  unbroken : ∀ piece ∈ pieces, '\n' ∉ piece
  joined : ['\n'].intercalate pieces = text

theorem unbroken_lines (text : List Char) : ∀ line ∈ lines text, '\n' ∉ line := by
  unfold lines
  induction text with
  | nil => simp
  | cons c rest ih =>
      obtain ⟨first, others, parts⟩ := List.exists_cons_of_ne_nil (List.splitOn_ne_nil '\n' rest)
      intro line hl
      rw [List.splitOn_cons_eq_if_modifyHead, parts] at hl
      rw [parts] at ih
      by_cases hc : (c == '\n') = true
      · rw [if_pos hc, List.mem_cons] at hl
        rcases hl with rfl | hl
        · simp
        · exact ih line hl
      · rw [if_neg hc, List.modifyHead_cons, List.mem_cons] at hl
        rcases hl with rfl | hl
        · have apart : '\n' ≠ c := fun e => hc (by rw [e]; exact BEq.rfl)
          simpa [apart] using ih first (by simp)
        · exact ih line (List.mem_cons_of_mem _ hl)

theorem lines_eq_iff {text : List Char} {pieces : List (List Char)} :
    lines text = pieces ↔ Pieces text pieces := by
  constructor
  · rintro rfl
    exact ⟨List.splitOn_ne_nil _ _, unbroken_lines text, List.intercalate_splitOn _⟩
  · intro h
    rw [← h.joined]
    exact List.splitOn_intercalate _ h.unbroken h.some_piece

theorem lines_of_unbroken {line : List Char} (h : '\n' ∉ line) : lines line = [line] :=
  lines_eq_iff.2 ⟨by simp, by simpa using h, by simp [List.intercalate]⟩

/-- A line without a word, or with a first word that starts with `#`. -/
def Vacant (line : List Char) : Prop :=
  ∃ ws, Words line ws ∧ (ws = [] ∨ ∃ comment rest, ws = ('#' :: comment) :: rest)

/-- A line with a mnemonic and as many literals in range as its instruction takes operands. -/
def IsStatement (line : List Char) : Prop :=
  ∃ op : Opcode, ∃ literals, Words line (op.mnemonic.toList :: literals) ∧
    literals.length = op.arity ∧
      ∀ w ∈ literals, ∃ n : Int, Literal w n ∧ -2 ^ 31 ≤ n ∧ n ≤ 2 ^ 31 - 1

/-- A line with the mnemonic of `s` and literals for its operands, the slots of `s` past these being
zero. -/
def Holds (line : List Char) (s : Statement) : Prop :=
  ∃ literals, Words line (s.opcode.mnemonic.toList :: literals) ∧
    List.Forall₂ (fun w v => Literal w v.toInt) literals s.operands ∧ s.Canonical

/-- The statements of lines, in order. -/
inductive Denotes : List (List Char) → List Statement → Prop
  | nil : Denotes [] []
  | vacant {line : List Char} {rest : List (List Char)} {ss : List Statement} :
    Vacant line → Denotes rest ss → Denotes (line :: rest) ss
  | statement {line : List Char} {rest : List (List Char)} {s : Statement} {ss : List Statement} :
    Holds line s → Denotes rest ss → Denotes (line :: rest) (s :: ss)

/-! ## Reading a line -/

theorem readOperands_eq_ok_iff {ws : List (List Char)} {vs : List Word} :
    readOperands ws = .ok vs ↔ List.Forall₂ (fun w v => Literal w v.toInt) ws vs := by
  induction ws generalizing vs with
  | nil =>
      rw [List.forall₂_nil_left_iff]
      exact ⟨fun h => by cases h; rfl, fun h => by rw [h]; rfl⟩
  | cons w rest ih =>
      unfold readOperands
      constructor
      · intro h
        split at h
        · exact absurd h (by simp)
        · next v hv =>
          cases hr : readOperands rest with
          | error fault => rw [hr] at h; exact absurd h (by simp [Except.map])
          | ok vs' =>
              rw [hr] at h
              cases h
              exact .cons (Word.ofLiteral?_eq_some_iff.1 hv) (ih.1 hr)
      · intro h
        cases h with
        | cons hv hrest =>
            rw [Word.ofLiteral?_eq_some_iff.2 hv]
            simp only [ih.2 hrest]
            rfl

theorem readStatement_eq_ok_iff {op : Opcode} {ws : List (List Char)} {s : Statement} :
    readStatement op ws = .ok s ↔
      s.opcode = op ∧ List.Forall₂ (fun w v => Literal w v.toInt) ws s.operands ∧ s.Canonical := by
  unfold readStatement
  constructor
  · intro h
    split at h
    · exact absurd h (by simp)
    · split at h
      · exact absurd h (by simp)
      · next vs hvs =>
        split at h
        · next count =>
          cases h
          refine ⟨rfl, ?_, Statement.canonical_filled count⟩
          rw [Statement.operands_filled count]
          exact readOperands_eq_ok_iff.1 hvs
        · exact absurd h (by simp)
  · rintro ⟨rfl, literals, canonical⟩
    have count : ws.length = s.opcode.arity := literals.length_eq.trans s.length_operands
    have some_word : ws ≠ [] := by
      intro none
      have := s.opcode.arity_pos
      rw [none, List.length_nil] at count
      omega
    rw [if_neg (by simpa using some_word), readOperands_eq_ok_iff.2 literals]
    simp only [s.length_operands, if_true]
    rw [Statement.filled_operands.2 canonical]

/-- A line is skipped exactly if it is vacant: a comment is recognised before its mnemonic is. -/
theorem readLine_eq_none_iff {line : List Char} : readLine line = .ok none ↔ Vacant line := by
  unfold readLine
  constructor
  · intro h
    split at h
    · next none => exact ⟨[], words_eq_iff.1 none, .inl rfl⟩
    · next first rest hws =>
      split at h
      · next comment =>
        obtain ⟨tail, rfl⟩ := List.head?_eq_some_iff.1 comment
        exact ⟨_, words_eq_iff.1 hws, .inr ⟨tail, rest, rfl⟩⟩
      · split at h
        · exact absurd h (by simp)
        · next op _ =>
          cases hr : readStatement op rest with
          | error fault => rw [hr] at h; exact absurd h (by simp [Except.map])
          | ok s => rw [hr] at h; exact absurd h (by simp [Except.map])
  · rintro ⟨ws, hws, rfl | ⟨comment, rest, rfl⟩⟩
    · rw [hws.eq]
    · rw [hws.eq]
      simp

theorem readLine_eq_some_iff {line : List Char} {s : Statement} :
    readLine line = .ok (some s) ↔ Holds line s := by
  unfold readLine
  constructor
  · intro h
    split at h
    · exact absurd h (by simp)
    · next first rest hws =>
      split at h
      · exact absurd h (by simp)
      · split at h
        · exact absurd h (by simp)
        · next op hop =>
          cases hr : readStatement op rest with
          | error fault => rw [hr] at h; exact absurd h (by simp [Except.map])
          | ok s' =>
              rw [hr] at h
              cases h
              obtain ⟨rfl, literals, canonical⟩ := readStatement_eq_ok_iff.1 hr
              refine ⟨rest, words_eq_iff.1 ?_, literals, canonical⟩
              rw [hws, Opcode.ofMnemonic?_eq_some_iff.1 hop, String.toList_ofList]
  · rintro ⟨literals, hws, values, canonical⟩
    have letter : s.opcode.mnemonic.toList.head? ≠ some '#' := by
      intro hash
      have := s.opcode.mnemonic_letters.2 '#' (List.mem_of_mem_head? hash)
      exact absurd this (by decide)
    have read := readStatement_eq_ok_iff.2 ⟨rfl, values, canonical⟩
    rw [hws.eq]
    simp only [if_neg letter, String.ofList_toList, Opcode.ofMnemonic?_mnemonic, read]
    rfl

/-- The same lines make a statement, whether the statement is named or not. -/
theorem isStatement_iff {line : List Char} : IsStatement line ↔ ∃ s, Holds line s := by
  constructor
  · rintro ⟨op, literals, hws, count, inRange⟩
    have values : ∃ vs : List Word, List.Forall₂ (fun w v => Literal w v.toInt) literals vs := by
      clear hws count
      induction literals with
      | nil => exact ⟨[], .nil⟩
      | cons w rest ih =>
          obtain ⟨n, hn, low, high⟩ := inRange w (by simp)
          obtain ⟨vs, hvs⟩ := ih fun w hw => inRange w (by simp [hw])
          refine ⟨Int32.ofInt n :: vs, .cons ?_ hvs⟩
          rwa [Int32.toInt_ofInt_of_le low (by omega)]
    obtain ⟨vs, hvs⟩ := values
    have fits : vs.length = op.arity := hvs.length_eq.symm.trans count
    exact ⟨.filled op vs, literals, hws, (Statement.operands_filled fits).symm ▸ hvs,
      Statement.canonical_filled fits⟩
  · rintro ⟨s, literals, hws, values, -⟩
    refine ⟨s.opcode, literals, hws, values.length_eq.trans s.length_operands, fun w hw => ?_⟩
    obtain ⟨i, hi, rfl⟩ := List.getElem_of_mem hw
    have value := values.get hi (values.length_eq ▸ hi)
    refine ⟨_, value, Int32.le_toInt _, ?_⟩
    have := Int32.toInt_lt (s.operands.get ⟨i, values.length_eq ▸ hi⟩)
    omega

/-- A line that is skipped holds no statement. -/
theorem Vacant.not_isStatement {line : List Char} (h : Vacant line) : ¬ IsStatement line := by
  intro statement
  obtain ⟨s, holds⟩ := isStatement_iff.1 statement
  have read := readLine_eq_some_iff.2 holds
  rw [readLine_eq_none_iff.2 h] at read
  exact absurd read (by simp)

/-! ## Reading a source -/

theorem readLines_eq_ok_iff {number : Nat} {pieces : List (List Char)} {ss : List Statement} :
    readLines number pieces = .ok ss ↔ Denotes pieces ss := by
  induction pieces generalizing number ss with
  | nil =>
      constructor
      · intro h
        cases h
        exact .nil
      · intro h
        cases h
        rfl
  | cons line rest ih =>
      unfold readLines
      constructor
      · intro h
        split at h
        · exact absurd h (by simp)
        · next vacant => exact .vacant (readLine_eq_none_iff.1 vacant) (ih.1 h)
        · next s holds =>
          cases hr : readLines (number + 1) rest with
          | error e => rw [hr] at h; exact absurd h (by simp [Except.map])
          | ok ss' =>
              rw [hr] at h
              cases h
              exact .statement (readLine_eq_some_iff.1 holds) (ih.1 hr)
      · intro h
        cases h with
        | vacant vacant denotes =>
            rw [readLine_eq_none_iff.2 vacant]
            exact ih.2 denotes
        | statement holds denotes =>
            rw [readLine_eq_some_iff.2 holds]
            simp only [ih.2 denotes]
            rfl

theorem compile_eq_ok {text : String} {p : Program} :
    compile text = .ok p ↔ Denotes (lines text.toList) p.statements.toList ∧ p.statements.toList ≠ [] := by
  unfold compile
  constructor
  · intro h
    split at h
    · exact absurd h (by simp)
    · exact absurd h (by simp)
    · next ss some_statement read =>
      cases h
      exact ⟨readLines_eq_ok_iff.1 read, fun none => some_statement none⟩
  · rintro ⟨denotes, some_statement⟩
    rw [readLines_eq_ok_iff.2 denotes]
    split
    · next e => exact absurd e (by simp)
    · next e => exact absurd (Except.ok.inj e) some_statement
    · next e =>
      cases e
      rfl

theorem Denotes.ne_nil_iff {pieces : List (List Char)} {ss : List Statement} (h : Denotes pieces ss) :
    ss ≠ [] ↔ ∃ piece ∈ pieces, IsStatement piece := by
  induction h with
  | nil => simp
  | vacant vacant _ ih =>
      rw [ih]
      constructor
      · rintro ⟨piece, mem, statement⟩
        exact ⟨piece, List.mem_cons_of_mem _ mem, statement⟩
      · rintro ⟨piece, mem, statement⟩
        rcases List.mem_cons.1 mem with rfl | mem
        · exact absurd statement vacant.not_isStatement
        · exact ⟨piece, mem, statement⟩
  | statement holds _ _ =>
      simp only [ne_eq, reduceCtorEq, not_false_eq_true, true_iff]
      exact ⟨_, List.mem_cons_self, isStatement_iff.2 ⟨_, holds⟩⟩

theorem exists_denotes_iff {pieces : List (List Char)} :
    (∃ ss, Denotes pieces ss) ↔ ∀ piece ∈ pieces, Vacant piece ∨ IsStatement piece := by
  constructor
  · rintro ⟨ss, h⟩
    induction h with
    | nil => simp
    | vacant vacant _ ih =>
        intro piece mem
        rcases List.mem_cons.1 mem with rfl | mem
        · exact .inl vacant
        · exact ih piece mem
    | statement holds _ ih =>
        intro piece mem
        rcases List.mem_cons.1 mem with rfl | mem
        · exact .inr (isStatement_iff.2 ⟨_, holds⟩)
        · exact ih piece mem
  · intro h
    induction pieces with
    | nil => exact ⟨[], .nil⟩
    | cons piece rest ih =>
        obtain ⟨ss, denotes⟩ := ih fun piece mem => h piece (List.mem_cons_of_mem _ mem)
        rcases h piece List.mem_cons_self with vacant | statement
        · exact ⟨ss, .vacant vacant denotes⟩
        · obtain ⟨s, holds⟩ := isStatement_iff.1 statement
          exact ⟨s :: ss, .statement holds denotes⟩

/-- **The grammar of sources.** Split a text at its line feeds, which there is one way to do. It
compiles exactly if every piece is vacant or a statement and some piece is a statement, and a program
is what it compiles to exactly if the program's statements are those the pieces denote, in order. -/
theorem compile_eq_ok_iff_denotes (text : String) :
    ∃ pieces, (∀ other, Pieces text.toList other ↔ other = pieces) ∧
      ((∃ p, compile text = .ok p) ↔
        (∀ piece ∈ pieces, Vacant piece ∨ IsStatement piece) ∧ ∃ piece ∈ pieces, IsStatement piece) ∧
      ∀ p, compile text = .ok p ↔
        Denotes pieces p.statements.toList ∧ ∃ piece ∈ pieces, IsStatement piece := by
  refine ⟨lines text.toList, fun other => lines_eq_iff.symm.trans eq_comm, ?_, fun p => ?_⟩
  · rw [← exists_denotes_iff]
    constructor
    · rintro ⟨p, h⟩
      obtain ⟨denotes, some_statement⟩ := compile_eq_ok.1 h
      exact ⟨⟨_, denotes⟩, denotes.ne_nil_iff.1 some_statement⟩
    · rintro ⟨⟨ss, denotes⟩, statement⟩
      exact ⟨⟨ss.toArray⟩, compile_eq_ok.2 ⟨denotes, denotes.ne_nil_iff.2 statement⟩⟩
  · rw [compile_eq_ok]
    constructor
    · rintro ⟨denotes, some_statement⟩
      exact ⟨denotes, denotes.ne_nil_iff.1 some_statement⟩
    · rintro ⟨denotes, statement⟩
      exact ⟨denotes, denotes.ne_nil_iff.2 statement⟩

end Source

end Retrace
