import Retrace.Proofs.Arithmetic
import Retrace.Proofs.Grammar
import Retrace.Proofs.Transaction

/-!
# Statements as single assignments

What each mnemonic stands for, as a table of assignments and jumps in terms of the memory before the
step, set against what a statement does in a transaction.

* `Computes` : the operators by name, in integers; `Operator.computes_apply` and
  `Operator.exists_of_computes` : they are the operators of words;
* `Memory.cell` : the content of an address, zero outside the memory;
* `Documented` : the table: a mnemonic and its operands, the cell they assign and where they go on;
* `Script.outcome` : the write and the result of a script; `Script.WritesLast.eval_outcome` : a script
  that writes last reads the memory as it was and changes no other cell;
* `Performs` : a statement does one assignment, or none, after all its reads;
* `Statement.single_assignment` : every line of the table compiles to a statement that performs it, and
  every statement performs its line of the table.
-/

namespace Retrace

open Text

/-! ## The table -/

open Binary64 in
/-- What an operator makes of two words, by its name. Arithmetic wraps; division cuts toward zero, and
by zero gives zero; a product is first rounded to 53 digits, a tie to even. -/
inductive Computes (x y : Word) : String → Word → Prop
  | add {z : Word} : z.toInt = (x.toInt + y.toInt).bmod (2 ^ 32) → Computes x y "add" z
  | sub {z : Word} : z.toInt = (x.toInt - y.toInt).bmod (2 ^ 32) → Computes x y "sub" z
  | mul {z : Word} {p : Int} :
    NearestEven ((x.toInt * y.toInt).natAbs.size - 53) (x.toInt * y.toInt) p →
      z.toInt = p.bmod (2 ^ 32) → Computes x y "mul" z
  | div {z : Word} :
    z.toInt = (if y = 0 then 0 else (x.toInt.tdiv y.toInt).bmod (2 ^ 32)) → Computes x y "div" z
  | mod {z : Word} :
    z.toInt = (if y = 0 then 0 else x.toInt - y.toInt * x.toInt.tdiv y.toInt) → Computes x y "mod" z
  | and : Computes x y "and" (x &&& y)
  | or : Computes x y "or" (x ||| y)
  | xor : Computes x y "xor" (x ^^^ y)
  | gt {z : Word} : z = (if y.toInt < x.toInt then 1 else 0) → Computes x y "gt" z
  | lt {z : Word} : z = (if x.toInt < y.toInt then 1 else 0) → Computes x y "lt" z
  | ge {z : Word} : z = (if y.toInt ≤ x.toInt then 1 else 0) → Computes x y "ge" z
  | le {z : Word} : z = (if x.toInt ≤ y.toInt then 1 else 0) → Computes x y "le" z
  | eq {z : Word} : z = (if x.toInt = y.toInt then 1 else 0) → Computes x y "eq" z
  | neq {z : Word} : z = (if x.toInt ≠ y.toInt then 1 else 0) → Computes x y "neq" z

/-- A value and the address it is stored at. -/
structure Assignment where
  target : Word
  value : Word

/-- The content of an address, zero outside the memory. -/
def Memory.cell (m : Memory) (x : Word) : Word :=
  if 0 ≤ x.toInt then (m.get? x.toInt.toNat).getD 0 else 0

/-- What a mnemonic with its operands stands for on a memory: an assignment, if it makes one, and where
execution goes on. All cells are those before the step. -/
inductive Documented (m : Memory) : String → List Word → Option Assignment → Flow → Prop
  | set {a b : Word} : Documented m "set" [a, b] (some ⟨a, m.cell b⟩) .advance
  | setc {a b : Word} : Documented m "setc" [a, b] (some ⟨a, b⟩) .advance
  | addresses {name : String} {a b c z : Word} :
    Computes (m.cell a) (m.cell b) name z → Documented m name [a, b, c] (some ⟨c, z⟩) .advance
  | constRight {name : String} {a b c z : Word} :
    Computes (m.cell a) b name z → Documented m (name ++ "c") [a, b, c] (some ⟨c, z⟩) .advance
  | constLeft {name : String} {a b c z : Word} :
    name ∉ ["and", "or", "xor", "eq", "neq"] → Computes a (m.cell b) name z →
      Documented m (name ++ "rc") [a, b, c] (some ⟨c, z⟩) .advance
  | rev {a : Word} : Documented m "rev" [a] (some ⟨a, ~~~(m.cell a)⟩) .advance
  | read {a b : Word} : Documented m "read" [a, b] (some ⟨b, m.cell (m.cell a)⟩) .advance
  | write {a b : Word} : Documented m "write" [a, b] (some ⟨m.cell a, m.cell b⟩) .advance
  | writec {a b : Word} : Documented m "writec" [a, b] (some ⟨m.cell a, b⟩) .advance
  | jmp {a : Word} : Documented m "jmp" [a] none (.jump (m.cell a))
  | jmpc {a : Word} : Documented m "jmpc" [a] none (.jump a)
  | jcnz {a b : Word} : Documented m "jcnz" [a, b] none (if m.cell b ≠ 0 then .jump a else .advance)

/-! ## Operators -/

namespace Operator

/-- The name of an operator in mnemonics. -/
def word : Operator → String
  | add => "add"
  | sub => "sub"
  | mul => "mul"
  | div => "div"
  | mod => "mod"
  | and => "and"
  | or => "or"
  | xor => "xor"
  | gt => "gt"
  | lt => "lt"
  | ge => "ge"
  | le => "le"
  | eq => "eq"
  | neq => "neq"

theorem truth_eq {p q : Prop} [Decidable p] [Decidable q] (h : p ↔ q) :
    truth (decide p) = if q then 1 else 0 := by
  unfold truth
  simp [h]

theorem apply_gt (x y : Word) : gt.apply x y = if y.toInt < x.toInt then 1 else 0 :=
  truth_eq Int32.lt_iff_toInt_lt

theorem apply_lt (x y : Word) : lt.apply x y = if x.toInt < y.toInt then 1 else 0 :=
  truth_eq Int32.lt_iff_toInt_lt

theorem apply_ge (x y : Word) : ge.apply x y = if y.toInt ≤ x.toInt then 1 else 0 :=
  truth_eq Int32.le_iff_toInt_le

theorem apply_le (x y : Word) : le.apply x y = if x.toInt ≤ y.toInt then 1 else 0 :=
  truth_eq Int32.le_iff_toInt_le

theorem apply_eq (x y : Word) : eq.apply x y = if x.toInt = y.toInt then 1 else 0 :=
  truth_eq Int32.toInt_inj.symm

theorem apply_neq (x y : Word) : neq.apply x y = if x.toInt ≠ y.toInt then 1 else 0 :=
  truth_eq Int32.toInt_inj.symm.not

/-- Every operator computes what its name says. -/
theorem computes_apply (op : Operator) (x y : Word) : Computes x y op.word (op.apply x y) := by
  cases op with
  | add => exact .add (toInt_add x y)
  | sub => exact .sub (toInt_sub x y)
  | mul =>
      obtain ⟨p, nearest, value⟩ := toInt_mul x y
      exact .mul nearest value
  | div => exact .div (toInt_div x y)
  | mod => exact .mod (toInt_mod x y)
  | and => exact .and
  | or => exact .or
  | xor => exact .xor
  | gt => exact .gt (apply_gt x y)
  | lt => exact .lt (apply_lt x y)
  | ge => exact .ge (apply_ge x y)
  | le => exact .le (apply_le x y)
  | eq => exact .eq (apply_eq x y)
  | neq => exact .neq (apply_neq x y)

/-- Whatever a name computes, an operator of that name does. -/
theorem exists_of_computes {x y z : Word} {name : String} (h : Computes x y name z) :
    ∃ op : Operator, op.word = name ∧ op.apply x y = z := by
  cases h with
  | add value => exact ⟨add, rfl, Int32.toInt_inj.1 ((toInt_add x y).trans value.symm)⟩
  | sub value => exact ⟨sub, rfl, Int32.toInt_inj.1 ((toInt_sub x y).trans value.symm)⟩
  | mul nearest value =>
      obtain ⟨p, nearest', value'⟩ := toInt_mul x y
      rw [nearest'.unique nearest] at value'
      exact ⟨mul, rfl, Int32.toInt_inj.1 (value'.trans value.symm)⟩
  | div value => exact ⟨div, rfl, Int32.toInt_inj.1 ((toInt_div x y).trans value.symm)⟩
  | mod value => exact ⟨mod, rfl, Int32.toInt_inj.1 ((toInt_mod x y).trans value.symm)⟩
  | and => exact ⟨and, rfl, rfl⟩
  | or => exact ⟨or, rfl, rfl⟩
  | xor => exact ⟨xor, rfl, rfl⟩
  | gt value => exact ⟨gt, rfl, (apply_gt x y).trans value.symm⟩
  | lt value => exact ⟨lt, rfl, (apply_lt x y).trans value.symm⟩
  | ge value => exact ⟨ge, rfl, (apply_ge x y).trans value.symm⟩
  | le value => exact ⟨le, rfl, (apply_le x y).trans value.symm⟩
  | eq value => exact ⟨eq, rfl, (apply_eq x y).trans value.symm⟩
  | neq value => exact ⟨neq, rfl, (apply_neq x y).trans value.symm⟩

end Operator

/-! ## One write after all reads -/

/-- What a cell with content `old` holds after an assignment, if there is one. -/
def Assignment.applied (i : Nat) (old : Word) : Option Assignment → Word
  | none => old
  | some z => if z.target.toInt = i then z.value else old

theorem Memory.fetch_eq_cell (m : Memory) (x : Word) : m.fetch x = m.cell x := by
  unfold cell
  rcases hs : m.slot? x with _ | i
  · have outside := (slot?_eq_none_iff m x).1 hs
    unfold fetch
    rw [hs]
    split_ifs with sign
    · have none : m.get? x.toInt.toNat = none := Array.getElem?_eq_none (by unfold size at outside; omega)
      rw [none]
      rfl
    · rfl
  · obtain ⟨value, -⟩ := (slot?_eq_some_iff m x i).1 hs
    have number : x.toInt.toNat = i := by omega
    rw [if_pos (by omega), number, get?_of_slot? hs]
    rfl

namespace Script

variable {α : Type}

/-- The first write and the result of a script, with its reads answered from one memory. -/
def outcome : Script α → Memory → Option Assignment × α
  | done result, _ => (none, result)
  | read address next, m => (next (m.cell address)).outcome m
  | write address value next, m => (some ⟨address, value⟩, (next.outcome m).2)

/-- A script that writes last reads the memory as it was, and changes nothing but the cell of its
write. -/
theorem WritesLast.eval_outcome {s : Script α} (h : s.WritesLast) (m : Memory) :
    (s.eval m).1 = (s.outcome m).2 ∧
      ∀ i, (s.eval m).2.get? i = (m.get? i).map fun old => Assignment.applied i old (s.outcome m).1 := by
  induction s with
  | done result => exact ⟨rfl, fun i => Option.map_id'.symm⟩
  | read a next ih =>
      unfold eval outcome
      rw [m.fetch_eq_cell]
      exact ih _ (h _)
  | write a v next ih =>
      obtain ⟨result, rfl⟩ := h
      exact ⟨rfl, m.get?_put a v⟩

/-- The accesses of a script that writes last are reads of the memory as it was and then its write. -/
theorem WritesLast.accesses_outcome {s : Script α} (h : s.WritesLast) (m : Memory) :
    ∃ reads : List Word, s.accesses m =
      reads.map (fun x => .read x (m.cell x)) ++
        ((s.outcome m).1.map fun z => .write z.target z.value).toList := by
  induction s with
  | done result => exact ⟨[], rfl⟩
  | read a next ih =>
      obtain ⟨reads, rest⟩ := ih _ (h (m.cell a))
      unfold accesses outcome
      rw [m.fetch_eq_cell]
      exact ⟨a :: reads, congrArg (Access.read a (m.cell a) :: ·) rest⟩
  | write a v next ih =>
      obtain ⟨result, rfl⟩ := h
      exact ⟨[], rfl⟩

end Script

/-- The statement does the assignment, if there is one, and goes on as `flow` says: every other cell is
as it was, and the only write, if there is one, comes after reads of the memory before the step. -/
structure Performs (m : Memory) (s : Statement) (assignment : Option Assignment) (flow : Flow) : Prop where
  flow : (m.transact s.script).1 = flow
  cells : ∀ i, (m.transact s.script).2.memory.get? i =
    (m.get? i).map fun old => Assignment.applied i old assignment
  accesses : ∃ reads : List Word, s.script.accesses m =
    reads.map (fun x => .read x (m.cell x)) ++
      (assignment.map fun z => .write z.target z.value).toList

theorem Statement.performs (m : Memory) (s : Statement) :
    Performs m s (s.script.outcome m).1 (s.script.outcome m).2 := by
  have last := s.script_writesLast
  have plain : ((m.transact s.script).1, (m.transact s.script).2.memory) = s.script.eval m :=
    s.script.run_eq_eval (.start m)
  obtain ⟨result, cells⟩ := last.eval_outcome m
  rw [← plain] at result cells
  exact ⟨result, cells, last.accesses_outcome m⟩

/-! ## The table and the catalog -/

/-- What the form of an operator's inputs adds to its name. -/
def InputForm.ending : InputForm → String
  | addresses => ""
  | constRight => "c"
  | constLeft => "rc"

/-- The mnemonic of an effect. -/
def Effect.word : Effect → String
  | copy => "set"
  | assign => "setc"
  | binary op form => op.word ++ form.ending
  | invert => "rev"
  | load => "read"
  | store => "write"
  | storeConst => "writec"
  | jump => "jmp"
  | jumpConst => "jmpc"
  | jumpIfNonZero => "jcnz"

namespace Opcode

theorem mnemonic_eq_word (op : Opcode) : op.mnemonic = op.effect.word := by
  cases op <;> decide

/-- The catalog has an instruction for every operator and form, but for a constant on the left of an
operator that does not tell left from right. -/
theorem exists_binary_iff {op : Operator} {form : InputForm} :
    (∃ o : Opcode, o.effect = .binary op form) ↔
      (form = .constLeft → op.word ∉ ["and", "or", "xor", "eq", "neq"]) := by
  have scan : (all.any fun o => o.effect = .binary op form) =
      decide (form = .constLeft → op.word ∉ ["and", "or", "xor", "eq", "neq"]) := by
    cases op <;> cases form <;> decide
  constructor
  · rintro ⟨o, effect⟩
    exact of_decide_eq_true (scan.symm.trans (List.any_eq_true.2 ⟨o, o.mem_all, decide_eq_true effect⟩))
  · intro h
    obtain ⟨o, -, effect⟩ := List.any_eq_true.1 (scan.trans (decide_eq_true h))
    exact ⟨o, of_decide_eq_true effect⟩

/-- The write and the result of every instruction are those of its line in the table. -/
theorem documented (m : Memory) (op : Opcode) (a b c : Word) :
    Documented m op.mnemonic ([a, b, c].take op.arity) ((op.effect.script a b c).outcome m).1
      ((op.effect.script a b c).outcome m).2 := by
  have offered : ∀ {o form}, op.effect = .binary o form → form = .constLeft →
      o.word ∉ ["and", "or", "xor", "eq", "neq"] := fun effect => exists_binary_iff.1 ⟨op, effect⟩
  rw [op.mnemonic_eq_word]
  unfold arity
  generalize op.effect = e at offered
  cases e with
  | copy => exact .set
  | assign => exact .setc
  | binary o form =>
      cases form with
      | addresses =>
          rw [Effect.word, InputForm.ending, String.append_empty]
          exact .addresses (o.computes_apply _ _)
      | constRight => exact .constRight (o.computes_apply _ _)
      | constLeft => exact .constLeft (offered rfl rfl) (o.computes_apply _ _)
  | invert => exact .rev
  | load => exact .read
  | store => exact .write
  | storeConst => exact .writec
  | jump => exact .jmp
  | jumpConst => exact .jmpc
  | jumpIfNonZero => exact .jcnz

/-- An instruction for an operator and a form is named for both, and does with its three operands what
they say. -/
theorem exists_opcode_binary (m : Memory) (o : Operator) (form : InputForm) (a b c : Word)
    (h : form = .constLeft → o.word ∉ ["and", "or", "xor", "eq", "neq"]) :
    ∃ op : Opcode, op.mnemonic = o.word ++ form.ending ∧ 3 = op.arity ∧
      (Statement.filled op [a, b, c]).script.outcome m =
        ((Effect.binary o form).script a b c).outcome m := by
  obtain ⟨op, effect⟩ := exists_binary_iff.2 h
  refine ⟨op, ?_, ?_, ?_⟩
  · rw [op.mnemonic_eq_word, effect]
    rfl
  · unfold arity
    rw [effect]
    cases form <;> rfl
  · show (op.effect.script a b c).outcome m = _
    rw [effect]

end Opcode

/-- Every line of the table has its instruction. -/
theorem Documented.exists_opcode {m : Memory} {name : String} {operands : List Word}
    {assignment : Option Assignment} {flow : Flow} (h : Documented m name operands assignment flow) :
    ∃ op : Opcode, op.mnemonic = name ∧ operands.length = op.arity ∧
      (Statement.filled op operands).script.outcome m = (assignment, flow) := by
  cases h with
  | set => exact ⟨.set, rfl, rfl, rfl⟩
  | setc => exact ⟨.setC, rfl, rfl, rfl⟩
  | @addresses _ a b c _ computes =>
      obtain ⟨o, rfl, rfl⟩ := Operator.exists_of_computes computes
      obtain ⟨op, named, rest⟩ := Opcode.exists_opcode_binary m o .addresses a b c (by simp)
      rw [InputForm.ending, String.append_empty] at named
      exact ⟨op, named, rest⟩
  | @constRight _ a b c _ computes =>
      obtain ⟨o, rfl, rfl⟩ := Operator.exists_of_computes computes
      exact Opcode.exists_opcode_binary m o .constRight a b c (by simp)
  | @constLeft _ a b c _ directed computes =>
      obtain ⟨o, rfl, rfl⟩ := Operator.exists_of_computes computes
      exact Opcode.exists_opcode_binary m o .constLeft a b c fun _ => directed
  | rev => exact ⟨.rev, rfl, rfl, rfl⟩
  | read => exact ⟨.read, rfl, rfl, rfl⟩
  | write => exact ⟨.write, rfl, rfl, rfl⟩
  | writec => exact ⟨.writeC, rfl, rfl, rfl⟩
  | jmp => exact ⟨.jmp, rfl, rfl, rfl⟩
  | jmpc => exact ⟨.jmpC, rfl, rfl, rfl⟩
  | jcnz => exact ⟨.jcnz, rfl, rfl, rfl⟩

/-- A text of one line compiles to the statement on it. -/
theorem Source.compile_of_holds {line : String} {s : Statement} (unbroken : '\n' ∉ line.toList)
    (h : Holds line.toList s) : compile line = .ok ⟨#[s]⟩ := by
  refine compile_eq_ok.2 ⟨?_, by simp⟩
  rw [lines_of_unbroken unbroken]
  exact .statement h .nil

/-- **Every statement is the single assignment or jump of its line in the table**, on every memory and
with any of its addresses equal: a line with a mnemonic and its operands compiles to a statement that
performs what the table says, and whatever statement is given, the table has its line. -/
theorem Statement.single_assignment (m : Memory) :
    (∀ name operands assignment flow, Documented m name operands assignment flow →
      ∀ (line : String) (literals : List (List Char)), '\n' ∉ line.toList →
        Words line.toList (name.toList :: literals) →
        List.Forall₂ (fun w v => Literal w v.toInt) literals operands →
          ∃ s, Source.compile line = .ok ⟨#[s]⟩ ∧ Performs m s assignment flow) ∧
    ∀ s : Statement, ∃ assignment flow,
      Documented m s.opcode.mnemonic s.operands assignment flow ∧ Performs m s assignment flow := by
  constructor
  · intro name operands assignment flow documented line literals unbroken words values
    obtain ⟨op, rfl, count, outcome⟩ := documented.exists_opcode
    refine ⟨filled op operands, ?_, ?_⟩
    · apply Source.compile_of_holds unbroken
      refine ⟨literals, words, ?_, canonical_filled count⟩
      rw [operands_filled count]
      exact values
    · have performs := (filled op operands).performs m
      rw [outcome] at performs
      exact performs
  · intro s
    exact ⟨_, _, s.opcode.documented m s.a s.b s.c, s.performs m⟩

/-- A pointer to itself, overwritten by the store that goes through it. -/
theorem Statement.single_assignment_aliased :
    let m : Memory := ⟨#[0, 5]⟩
    ∃ s, Source.compile "write 0 01" = .ok ⟨#[s]⟩ ∧ Performs m s (some ⟨0, 5⟩) .advance ∧
      (m.transact s.script).2.memory.get? 0 = some 5 ∧ (m.transact s.script).2.memory.get? 1 = some 5 := by
  intro m
  have documented : Documented m "write" [0, 1] (some ⟨m.cell 0, m.cell 1⟩) .advance := .write
  have pointer : m.cell 0 = 0 := by decide
  have stored : m.cell 1 = 5 := by decide
  rw [pointer, stored] at documented
  obtain ⟨s, compiles, performs⟩ := (single_assignment m).1 "write" [0, 1] _ _ documented "write 0 01"
    ["0".toList, "01".toList] (by decide) (words_eq_iff.1 (by decide))
    (.cons (Word.ofLiteral?_eq_some_iff.1 (by decide)) (.cons (Word.ofLiteral?_eq_some_iff.1 (by decide)) .nil))
  refine ⟨s, compiles, performs, ?_, ?_⟩
  · rw [performs.cells]
    decide
  · rw [performs.cells]
    decide

end Retrace
