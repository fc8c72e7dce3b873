import Retrace.Proofs.Joining
import Retrace.Proofs.SpanFormat

/-!
# Sources read by tokens

A reader of sources in passes: a text is cut into lines, a line without the blanks at its ends into
tokens, and the tokens of a line make a statement. Literals are told from other words before anything
is known of the line. The passes together are `Source.compile`.

* `Source.textLines` : lines as they end; `Source.readLines_textLines`;
* `Source.Token`, `Source.tokenize` : the words of a line, each with the value it has as a literal;
* `Source.parseTokens` : the statement of the tokens of a line; `Source.parseTokens_tokenize`;
* `Source.scan` : the program of a text; `Source.scan_eq_compile`.
-/

namespace Retrace.Source

open Text

/-! ## Lines -/

/-- The lines of a text, where `line` holds the characters of an open line from the last to the first.
A line feed ends a line and takes a carriage return in front of it along. At the end of the text an
open line counts if there is anything on it. -/
def textLines (line : List Char) : List Char → List (List Char)
  | [] => if line.isEmpty then [] else [line.reverse]
  | c :: rest => if c = '\n' then chomped line.reverse :: textLines [] rest else textLines (c :: line) rest

/-- Neither the carriage returns nor an empty last line make a difference to what is read. -/
theorem readLines_textLines (number : Nat) {line : List Char} (unbroken : '\n' ∉ line) (text : List Char) :
    readLines number (textLines line text) = readLines number (lines (line.reverse ++ text)) := by
  induction text generalizing number line with
  | nil =>
      rw [List.append_nil, lines_of_unbroken (by simpa using unbroken), textLines]
      cases line with
      | nil => rfl
      | cons c rest => rfl
  | cons c rest ih =>
      rw [textLines]
      split_ifs with feed
      · rw [feed, lines_joined, lines_of_unbroken (by simpa using unbroken), List.singleton_append, readLines,
          readLines, readLine_chomped, ih (number + 1) List.not_mem_nil]
        rfl
      · have longer : '\n' ∉ c :: line := by
          rw [List.mem_cons, not_or]
          exact ⟨Ne.symm feed, unbroken⟩
        rw [ih number longer, List.reverse_cons, List.append_assoc]
        rfl

/-! ## Tokens -/

/-- A word of a line. -/
inductive Token where
  | literal (text : List Char) (value : Word)
  | other (text : List Char)

/-- A sign, if there is one, and digits, in the range of a word. -/
def signed? : List Char → Option Word
  | '+' :: digits => if isNumeral digits then Word.ofInt? (numeralValue digits) else none
  | '-' :: digits => if isNumeral digits then Word.ofInt? (-(numeralValue digits)) else none
  | digits => if isNumeral digits then Word.ofInt? (numeralValue digits) else none

namespace Token

def text : Token → List Char
  | literal text _ => text
  | other text => text

/-- A word without a minus sign in front. -/
def unsigned : List Char → List Char
  | '-' :: digits => digits
  | digits => digits

/-- Digits after at most a minus sign are a literal if their number is in range. -/
def ofWord (word : List Char) : Token :=
  match signed? word with
  | some value => if isNumeral (unsigned word) then literal word value else other word
  | none => other word

/-- The instruction a token names. -/
def opcode? : Token → Option Opcode
  | literal _ _ => none
  | other text => Opcode.ofMnemonic? (String.ofList text)

def operand : Token → Except LineFault Word
  | literal _ value => .ok value
  | other text => .error (.malformedOperand (String.ofList text))

end Token

/-- The tokens of a line, none of a comment. -/
def tokenize (line : List Char) : List Token :=
  let core := trim line
  if core.isEmpty ∨ core.head? = some '#' then [] else (words core).map Token.ofWord

/-- Without a minus sign a literal is read as a numeral. -/
theorem ofLiteral?_of_unsigned {word : List Char} (minus : word.head? ≠ some '-') :
    Word.ofLiteral? word = if isNumeral word then Word.ofInt? (numeralValue word) else none := by
  unfold Word.ofLiteral?
  split
  · exact absurd rfl minus
  · rfl

/-- A word may be read with a plus sign, but that is no digit and so in no literal. -/
theorem ofLiteral?_eq (word : List Char) :
    Word.ofLiteral? word = if isNumeral (Token.unsigned word) then signed? word else none := by
  unfold Token.unsigned
  split
  · next digits =>
    change (if isNumeral digits then _ else none) =
      if isNumeral digits then if isNumeral digits then _ else none else none
    cases isNumeral digits <;> rfl
  · next minus =>
    have unsigned : word.head? ≠ some '-' := by
      intro sign
      obtain ⟨rest, rfl⟩ := List.head?_eq_some_iff.1 sign
      exact minus rest rfl
    rw [ofLiteral?_of_unsigned unsigned]
    cases numeral : isNumeral word with
    | false => rfl
    | true =>
        simp only [if_true]
        unfold signed?
        split
        · simp [isNumeral] at numeral
        · next digits => exact absurd rfl (minus digits)
        · rw [if_pos numeral]

theorem Token.ofWord_eq (word : List Char) :
    ofWord word = (Word.ofLiteral? word).elim (other word) (literal word) := by
  rw [ofLiteral?_eq, ofWord]
  cases signed? word with
  | none => rw [ite_self]; rfl
  | some value => cases isNumeral (unsigned word) <;> rfl

/-- A literal starts with a character in front of the letters, so it names no instruction. -/
theorem ofMnemonic?_of_literal {word : List Char} {value : Word} (h : Word.ofLiteral? word = some value) :
    Opcode.ofMnemonic? (String.ofList word) = none := by
  rw [Option.eq_none_iff_forall_ne_some]
  intro op named
  obtain ⟨-, letters⟩ := op.mnemonic_letters
  rw [Opcode.ofMnemonic?_eq_some_iff.1 named, String.toList_ofList] at letters
  rcases word with _ | ⟨c, rest⟩
  · cases h
  · have letter : 'a' ≤ c := (letters c (by simp)).1
    have sign : c ≠ '-' := by
      rintro rfl
      exact absurd letter (by decide)
    have digit : c.isDigit = true := by
      rw [ofLiteral?_of_unsigned (by simpa using sign)] at h
      split_ifs at h with numeral
      simp only [isNumeral, List.all_cons, Bool.and_eq_true] at numeral
      exact numeral.2.1
    have bound := (Char.isDigit_iff_toNat.1 digit).2
    have above : 'a'.toNat ≤ c.toNat := letter
    simp only [Char.reduceToNat] at bound above
    omega

/-! ## Statements -/

/-- The statement of the tokens of a line. A mnemonic alone is missing an operand. -/
def parseTokens : List Token → Except LineFault (Option Statement)
  | [] => .ok none
  | first :: rest =>
    match first.opcode? with
    | none => .error (.unknownInstruction (String.ofList first.text))
    | some op =>
      if rest.isEmpty ∧ 0 < op.arity then .error (.malformedOperand "")
      else
        match rest.mapM Token.operand with
        | .error fault => .error fault
        | .ok operands =>
          match Statement.ofOperands op operands with
          | .ok s => .ok (some s)
          | .error (.arityMismatch op found) => .error (.arityMismatch op found)
          | .error (.unknownOpcode code) => .error (.unknownInstruction code.repr)

theorem mapM_operand (ws : List (List Char)) : (ws.map Token.ofWord).mapM Token.operand = readOperands ws := by
  induction ws with
  | nil => rfl
  | cons word rest ih =>
      rw [List.map_cons, List.mapM_cons, ih, Token.ofWord_eq, readOperands]
      cases Word.ofLiteral? word with
      | none => rfl
      | some value => cases readOperands rest <;> rfl

theorem opcode?_ofWord (word : List Char) :
    (Token.ofWord word).opcode? = Opcode.ofMnemonic? (String.ofList word) := by
  rw [Token.ofWord_eq]
  cases literal : Word.ofLiteral? word with
  | none => rfl
  | some value => exact (ofMnemonic?_of_literal literal).symm

theorem text_ofWord (word : List Char) : (Token.ofWord word).text = word := by
  rw [Token.ofWord_eq]
  cases Word.ofLiteral? word <;> rfl

/-- The tokens of words are parsed as the words are read. -/
theorem parseTokens_words (first : List Char) (rest : List (List Char)) :
    parseTokens ((first :: rest).map Token.ofWord) =
      match Opcode.ofMnemonic? (String.ofList first) with
      | none => .error (.unknownInstruction (String.ofList first))
      | some op => (readStatement op rest).map some := by
  rw [List.map_cons, parseTokens, opcode?_ofWord, text_ofWord]
  cases Opcode.ofMnemonic? (String.ofList first) with
  | none => rfl
  | some op =>
      simp only [mapM_operand, readStatement, op.arity_pos, and_true, List.isEmpty_map, Statement.ofOperands]
      cases rest with
      | nil => rfl
      | cons word words =>
          simp only [List.isEmpty_cons, Bool.false_eq_true, if_false]
          cases readOperands (word :: words) with
          | error fault => rfl
          | ok operands => by_cases count : operands.length = op.arity <;> simp [count, Except.map]

/-! ## Blanks at the ends -/

theorem words_of_blank {cs : List Char} (blank : ∀ c ∈ cs, isBlank c = true) (ds : List Char) :
    words (cs ++ ds) = words ds := by
  induction cs with
  | nil => rfl
  | cons c rest ih =>
      obtain ⟨first, others⟩ := List.forall_mem_cons.1 blank
      rw [List.cons_append, words_cons_blank first, ih others]

theorem words_trim (cs : List Char) : words (trim cs) = words cs := by
  obtain ⟨⟨before, after, parts, blank, blank'⟩, -, -⟩ := stripped_trim cs
  nth_rewrite 2 [parts]
  rw [List.append_assoc, words_of_blank blank]
  cases after with
  | nil => rw [List.append_nil]
  | cons c rest =>
      obtain ⟨first, others⟩ := List.forall_mem_cons.1 blank'
      have none : words rest = [] := by
        have all := words_of_blank others []
        rwa [List.append_nil] at all
      rw [words_append_blank first, none, List.append_nil]

/-- A text that starts with a character that is not blank starts with its first word. -/
theorem head?_words {cs : List Char} (h : ∀ c ∈ cs.head?, isBlank c = false) :
    (words cs).head?.bind List.head? = cs.head? := by
  obtain ⟨ws, hws⟩ := exists_words cs
  rw [hws.eq]
  cases hws with
  | nil => rfl
  | blank blank => exact absurd blank (by simp [h _ rfl])
  | @word w rest ws some_char =>
      obtain ⟨c, w, rfl⟩ := List.exists_cons_of_ne_nil some_char
      rfl

theorem parseTokens_tokenize (line : List Char) : parseTokens (tokenize line) = readLine line := by
  have head : (words line).head?.bind List.head? = (trim line).head? := by
    rw [← words_trim]
    exact head?_words (stripped_trim line).head
  have empty : (trim line).isEmpty ↔ words line = [] := by
    rw [List.isEmpty_iff]
    constructor
    · intro blank
      rw [← words_trim, blank]
      rfl
    · intro none
      rw [none] at head
      exact List.head?_eq_none_iff.1 head.symm
  unfold tokenize readLine
  simp only [words_trim, empty, ← head]
  cases words line with
  | nil => rfl
  | cons first rest =>
      simp only [reduceCtorEq, false_or, List.head?_cons, Option.bind_some]
      split_ifs with comment
      · rfl
      · exact parseTokens_words first rest

/-! ## Sources -/

/-- The statements of lines, after those of the lines above them. -/
def scanLines (number : Nat) (statements : Array Statement) :
    List (List Char) → Except CompileError (Array Statement)
  | [] => .ok statements
  | line :: rest =>
    match parseTokens (tokenize line) with
    | .error fault => .error (.atLine number fault)
    | .ok none => scanLines (number + 1) statements rest
    | .ok (some s) => scanLines (number + 1) (statements.push s) rest

/-- The program of a text. -/
def scan (text : String) : Except CompileError Program :=
  match scanLines 1 #[] (textLines [] text.toList) with
  | .error e => .error e
  | .ok statements => if statements.isEmpty then .error .emptyProgram else .ok ⟨statements⟩

theorem scanLines_eq (number : Nat) (statements : Array Statement) (ls : List (List Char)) :
    scanLines number statements ls = (readLines number ls).map (statements ++ ·.toArray) := by
  induction ls generalizing number statements with
  | nil => simp [scanLines, readLines, Except.map]
  | cons line rest ih =>
      rw [scanLines, readLines, parseTokens_tokenize]
      rcases readLine line with fault | _ | s
      · rfl
      · exact ih (number + 1) statements
      · change scanLines (number + 1) (statements.push s) rest = _
        rw [ih]
        cases readLines (number + 1) rest with
        | error e => rfl
        | ok ss => simp [Except.map]

/-- **A source read by tokens is compiled.** -/
theorem scan_eq_compile (text : String) : scan text = compile text := by
  have same := readLines_textLines 1 List.not_mem_nil text.toList
  unfold scan compile
  rw [scanLines_eq, same]
  simp only [List.reverse_nil, List.nil_append]
  rcases readLines 1 (lines text.toList) with e | _ | ⟨s, ss⟩
  · rfl
  · rfl
  · simp [Except.map]

end Retrace.Source
