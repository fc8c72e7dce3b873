import Mathlib.Data.List.Forall2
import Retrace.Proofs.Halting

/-!
# What footprints tell

The footprint of a step is a complete account of the cells its outcome rests on. So a run can be
repeated on another memory, as long as nothing it looked at is different there.

* `Footprint.Within` : a footprint only grows while a script runs (`Script.footprint_run`);
* `Transaction.Agree` : two transactions that did the same, on memories that agree on given cells and
  on all cells written; `Transaction.Agree.run` : kept by a script that reads given cells only;
* `Record.Matches` : two records that differ at most in the values overwritten;
* `Machine.Parallel` : two machines in step with each other; `Machine.parallel_iterate`;
* `Machine.run_depends_on_reads` : a run depends on the cells it reads before it writes them.
-/

namespace Retrace

/-! ## Footprints grow -/

/-- Everything in the first footprint is in the second. -/
structure Footprint.Within (f g : Footprint) : Prop where
  read : ∀ x ∈ f.read, x ∈ g.read
  write : ∀ x ∈ f.write, x ∈ g.write
  outOfBounds : ∀ a ∈ f.outOfBounds, a ∈ g.outOfBounds

namespace Footprint.Within

theorem refl (f : Footprint) : Within f f := ⟨fun _ h => h, fun _ h => h, fun _ h => h⟩

theorem trans {f g h : Footprint} (fg : Within f g) (gh : Within g h) : Within f h :=
  ⟨fun x hx => gh.read x (fg.read x hx), fun x hx => gh.write x (fg.write x hx),
    fun a ha => gh.outOfBounds a (fg.outOfBounds a ha)⟩

end Footprint.Within

namespace Transaction

theorem within_miss (t : Transaction) (a : Word) : t.footprint.Within (t.miss a).footprint :=
  ⟨fun _ h => h, fun _ h => h, fun _ h => OrderedSet.mem_insert.2 (.inr h)⟩

theorem within_read (t : Transaction) (a : Word) : t.footprint.Within (t.read a).2.footprint := by
  cases h : t.memory.slot? a with
  | none =>
      rw [read_of_miss h]
      exact t.within_miss a
  | some i =>
      rw [read_of_hit h]
      exact ⟨fun _ h => OrderedSet.mem_insert.2 (.inr h), fun _ h => h, fun _ h => h⟩

theorem within_write (t : Transaction) (a v : Word) : t.footprint.Within (t.write a v).footprint := by
  cases h : t.memory.slot? a with
  | none =>
      rw [write_of_miss h]
      exact t.within_miss a
  | some i =>
      rw [write_of_hit h]
      exact ⟨fun _ h => h, fun _ h => OrderedSet.mem_insert.2 (.inr h), fun _ h => h⟩

end Transaction

theorem Script.footprint_run {α : Type} (s : Script α) (t : Transaction) :
    t.footprint.Within (s.run t).2.footprint := by
  induction s generalizing t with
  | done result => exact .refl _
  | read a next ih => exact (t.within_read a).trans (ih _ _)
  | write a v next ih => exact (t.within_write a v).trans (ih _)

/-! ## Transactions that do the same -/

/-- Addresses and values written, in order, without the values that were there before. -/
def Commit.effects (c : Commit) : List (Size × Word) :=
  c.records.map fun w => (w.address, w.newValue)

/-- A step of the trace wrote the cell. -/
def Written (rs : List Record) (i : Nat) : Prop :=
  ∃ r ∈ rs, ∃ x ∈ r.footprint.write, x.toNat = i

namespace Memory

theorem slot?_congr {m m' : Memory} (size : m.size = m'.size) (a : Word) : m.slot? a = m'.slot? a := by
  unfold slot?
  rw [size]

theorem fetch_congr {m m' : Memory} {a : Word} {i : Nat} (h : m.slot? a = some i) (h' : m'.slot? a = some i)
    (same : m.get? i = m'.get? i) : m.fetch a = m'.fetch a := by
  simp only [fetch, h, h', same]

end Memory

namespace Transaction

/-- Two transactions that did the same so far, and whose memories agree on the cells of `D` and on
every cell written. -/
structure Agree (D : Nat → Prop) (t t' : Transaction) : Prop where
  size : t.memory.size = t'.memory.size
  footprint : t.footprint = t'.footprint
  effects : t.commit.effects = t'.commit.effects
  cells : ∀ i, (D i ∨ ∃ x ∈ t.footprint.write, x.toNat = i) → t.memory.get? i = t'.memory.get? i

namespace Agree

variable {D : Nat → Prop} {t t' : Transaction}

theorem start {m m' : Memory} (size : m.size = m'.size) (cells : ∀ i, D i → m.get? i = m'.get? i) :
    Agree D (.start m) (.start m') := by
  refine ⟨size, rfl, rfl, ?_⟩
  rintro i (known | ⟨x, hx, -⟩)
  · exact cells i known
  · exact absurd hx (OrderedSet.not_mem_empty x)

theorem miss (h : Agree D t t') (a : Word) : Agree D (t.miss a) (t'.miss a) := by
  refine ⟨h.size, ?_, h.effects, h.cells⟩
  simp only [Transaction.miss, h.footprint]

/-- A read of a known cell gives the same value on both sides, and so does a read that misses. -/
theorem read (h : Agree D t t') {a : Word} (known : ∀ i, t.memory.slot? a = some i → D i) :
    (t.read a).1 = (t'.read a).1 ∧ Agree D (t.read a).2 (t'.read a).2 := by
  have slot : t.memory.slot? a = t'.memory.slot? a := Memory.slot?_congr h.size a
  cases hs : t.memory.slot? a with
  | none =>
      rw [read_of_miss hs, read_of_miss (slot ▸ hs)]
      exact ⟨rfl, h.miss a⟩
  | some i =>
      have hs' : t'.memory.slot? a = some i := slot ▸ hs
      rw [read_of_hit hs, read_of_hit hs']
      have same : t.memory.fetch a = t'.memory.fetch a :=
        Memory.fetch_congr hs hs' (h.cells i (.inl (known i hs)))
      refine ⟨same, h.size, ?_, h.effects, h.cells⟩
      simp only [h.footprint]

/-- A write of one value to one address makes the cell agree, whatever it held. -/
theorem write (h : Agree D t t') (a v : Word) : Agree D (t.write a v) (t'.write a v) := by
  have slot : t.memory.slot? a = t'.memory.slot? a := Memory.slot?_congr h.size a
  cases hs : t.memory.slot? a with
  | none =>
      rw [write_of_miss hs, write_of_miss (slot ▸ hs)]
      exact h.miss a
  | some i =>
      rw [write_of_hit hs, write_of_hit (slot ▸ hs)]
      have address := (Memory.slot?_eq_some hs).2
      refine ⟨?_, ?_, ?_, ?_⟩
      · simp only [Memory.size_set, h.size]
      · simp only [h.footprint]
      · have before := h.effects
        unfold Commit.effects at before ⊢
        simp only [List.map_append, before, List.map_cons, List.map_nil]
      · intro j hj
        simp only [Memory.get?_set, h.size]
        split_ifs with here
        · rfl
        · refine h.cells j ?_
          rcases hj with known | ⟨x, hx, rfl⟩
          · exact .inl known
          · -- the new address is the one cell that was just set
            rcases OrderedSet.mem_insert.1 hx with rfl | old
            · have inside := (Memory.slot?_eq_some hs).1
              exact absurd ⟨address.symm, by rw [address, ← h.size]; exact inside⟩ here
            · exact .inr ⟨x, old, rfl⟩

/-- A script that reads cells of `D` only does the same on both sides. -/
theorem run {α : Type} (s : Script α) (h : Agree D t t')
    (known : ∀ x ∈ (s.run t).2.footprint.read, D x.toNat) :
    (s.run t).1 = (s.run t').1 ∧ Agree D (s.run t).2 (s.run t').2 := by
  induction s generalizing t t' with
  | done result => exact ⟨rfl, h⟩
  | read a next ih =>
      have here : ∀ i, t.memory.slot? a = some i → D i := by
        intro i hi
        have noted : UInt64.ofNat i ∈ (t.read a).2.footprint.read := by
          rw [read_of_hit hi]
          exact OrderedSet.mem_insert.2 (.inl rfl)
        have final := known _ (((next (t.read a).1).footprint_run (t.read a).2).read _ noted)
        rwa [(Memory.slot?_eq_some hi).2] at final
      obtain ⟨value, agree⟩ := h.read here
      have rest := ih _ agree known
      unfold Script.run
      rw [← value]
      exact rest
  | write a v next ih => exact ih (h.write a v) known

end Agree

end Transaction

/-! ## Records and memories -/

/-- Two records of the same step, up to the values that were overwritten. -/
structure Record.Matches (r r' : Record) : Prop where
  statement : r.statement = r'.statement
  before : r.before = r'.before
  after : r.after = r'.after
  footprint : r.footprint = r'.footprint
  effects : r.commit.effects = r'.commit.effects

/-- A statement that reads cells on which two memories agree leaves matching records, and memories
that agree also where it wrote. -/
theorem Record.ofStatement_agree {D : Nat → Prop} {m m' : Memory} (size : m.size = m'.size)
    (cells : ∀ i, D i → m.get? i = m'.get? i) (counter : Word) (s : Statement)
    (known : ∀ x ∈ (ofStatement m counter s).2.footprint.read, D x.toNat) :
    Matches (ofStatement m counter s).2 (ofStatement m' counter s).2 ∧
      (ofStatement m counter s).1.size = (ofStatement m' counter s).1.size ∧
      ∀ i, (D i ∨ ∃ x ∈ (ofStatement m counter s).2.footprint.write, x.toNat = i) →
        (ofStatement m counter s).1.get? i = (ofStatement m' counter s).1.get? i := by
  obtain ⟨flow, agree⟩ := (Transaction.Agree.start size cells).run s.script known
  refine ⟨⟨rfl, rfl, ?_, agree.footprint, agree.effects⟩, agree.size, agree.cells⟩
  exact congrArg (Flow.target counter) flow

/-! ## Runs -/

namespace Machine

/-- Two machines at the end of traces that match, with memories that agree on the cells of `D` and on
every cell written on the way. -/
structure Parallel (D : Nat → Prop) (a b : Machine) : Prop where
  program : a.program = b.program
  counter : a.counter = b.counter
  frontier : a.future = []
  frontier' : b.future = []
  size : a.memory.size = b.memory.size
  past : List.Forall₂ Record.Matches a.past b.past
  cells : ∀ i, (D i ∨ Written a.past i) → a.memory.get? i = b.memory.get? i

theorem written_cons (r : Record) (rs : List Record) (i : Nat) :
    Written (r :: rs) i ↔ (∃ x ∈ r.footprint.write, x.toNat = i) ∨ Written rs i := by
  simp [Written]

/-- The step of the first machine, if it takes one, reads only cells that are known to agree. -/
theorem Parallel.forward {D : Nat → Prop} {a b : Machine} (h : Parallel D a b)
    (known : ∀ r, a.forward.past = r :: a.past → ∀ x ∈ r.footprint.read, D x.toNat ∨ Written a.past x.toNat) :
    Parallel D a.forward b.forward := by
  have ahead := future_forward h.frontier
  have ahead' := future_forward h.frontier'
  unfold Machine.forward at known ahead ahead' ⊢
  cases hs : a.program.get? a.counter with
  | none =>
      rw [stepIn_of_end h.frontier hs, stepIn_of_end h.frontier' (by rw [← h.program, ← h.counter, hs])]
      exact h
  | some s =>
      have hs' : b.program.get? b.counter = some s := by rw [← h.program, ← h.counter, hs]
      rw [stepIn_of_statement h.frontier hs] at known ahead ⊢
      rw [stepIn_of_statement h.frontier' hs'] at ahead' ⊢
      obtain ⟨record, size, cells⟩ := Record.ofStatement_agree h.size h.cells a.counter s (known _ rfl)
      rw [← h.counter] at ahead' ⊢
      refine ⟨h.program, record.after, ahead, ahead', size, .cons record h.past, ?_⟩
      intro i hi
      refine cells i ?_
      rw [written_cons] at hi
      rcases hi with start | now | earlier
      · exact .inl (.inl start)
      · exact .inr now
      · exact .inl (.inr earlier)

/-- The reads of a trace that no earlier step of it has written to are reads of known cells. -/
def ReadsKnown (D : Nat → Prop) (trace : List Record) : Prop :=
  ∀ earlier r later, trace = earlier ++ r :: later → ∀ x ∈ r.footprint.read,
    (∀ r' ∈ earlier, x ∉ r'.footprint.write) → D x.toNat

theorem ReadsKnown.of_append {D : Nat → Prop} {trace more : List Record} (h : ReadsKnown D (trace ++ more)) :
    ReadsKnown D trace := by
  rintro earlier r later rfl
  exact h earlier r (later ++ more) (by simp)

theorem parallel_iterate {D : Nat → Prop} {a b : Machine} (h : Parallel D a b) (n : Nat)
    (known : ReadsKnown D (Machine.forward^[n] a).history) :
    Parallel D (Machine.forward^[n] a) (Machine.forward^[n] b) := by
  -- by steps at the end, so that the trace of the shorter run begins the trace of the longer one
  induction n with
  | zero => exact h
  | succ n ih =>
      rw [Function.iterate_succ_apply'] at known ⊢
      rw [Function.iterate_succ_apply']
      have grows : (Machine.forward^[n] a).history <+: (Machine.forward^[n] a).forward.history :=
        (climbs_forward _).grows
      obtain ⟨more, split⟩ := grows
      have parallel := ih (by rw [← split] at known; exact known.of_append)
      refine parallel.forward fun r step x read => ?_
      by_cases written : Written (Machine.forward^[n] a).past x.toNat
      · exact .inr written
      · refine .inl (known (Machine.forward^[n] a).past.reverse r [] ?_ x read ?_)
        · rw [history_eq_reverse (future_forward parallel.frontier), step, List.reverse_cons]
        · intro r' earlier wrote
          exact written ⟨r', List.mem_reverse.1 earlier, x, wrote, rfl⟩

theorem Parallel.moves {D : Nat → Prop} {a b : Machine} {n : Nat} (start : Parallel D a b)
    (last : Parallel D (Machine.forward^[n] a) (Machine.forward^[n] b)) : moves n a = moves n b :=
  moves_eq_of_cursor start.past.length_eq last.past.length_eq

/-- **A run depends on what it reads.** Two machines with nothing recorded stand at the same place of
the same program, and their memories have the same size. If the memories agree wherever the first run
reads a cell that no earlier step of it has written, then both runs take as many steps, leave the same
records but for the values overwritten, and end with memories that agree wherever they agreed before
and wherever the run wrote. -/
theorem run_depends_on_reads {a b : Machine} (fresh : a.history = []) (fresh' : b.history = [])
    (program : a.program = b.program) (counter : a.counter = b.counter)
    (size : a.memory.size = b.memory.size) (n : Nat)
    (agree : ∀ earlier r later, (a.run n).1.history = earlier ++ r :: later →
      ∀ x ∈ r.footprint.read, (∀ r' ∈ earlier, x ∉ r'.footprint.write) →
        a.memory.get? x.toNat = b.memory.get? x.toNat) :
    (a.run n).2 = (b.run n).2 ∧ (a.run n).2.steps = (a.run n).1.history.length ∧
      List.Forall₂ Record.Matches (a.run n).1.history (b.run n).1.history ∧
      ∀ i, (a.memory.get? i = b.memory.get? i ∨ Written (a.run n).1.history i) →
        (a.run n).1.memory.get? i = (b.run n).1.memory.get? i := by
  obtain ⟨past, future⟩ := List.append_eq_nil_iff.1 fresh
  obtain ⟨past', future'⟩ := List.append_eq_nil_iff.1 fresh'
  rw [List.reverse_eq_nil_iff] at past past'
  have start : Parallel (fun i => a.memory.get? i = b.memory.get? i) a b := by
    refine ⟨program, counter, future, future', size, ?_, ?_⟩
    · rw [past, past']
      exact .nil
    · rintro i (same | ⟨r, hr, -⟩)
      · exact same
      · rw [past] at hr
        exact absurd hr List.not_mem_nil
  rw [run_fst] at agree ⊢
  have last := parallel_iterate start n agree
  have steps := start.moves last
  rw [run_fst, run_snd, run_snd, history_eq_reverse last.frontier, history_eq_reverse last.frontier']
  refine ⟨?_, ?_, List.forall₂_reverse_iff.2 last.past, ?_⟩
  · rw [steps, isHalted, isHalted, last.program, last.counter]
  · have reached := cursor_iterate_forward n a
    rw [cursor, cursor, past, List.length_nil, Nat.zero_add] at reached
    rw [List.length_reverse, reached]
  · rintro i (same | ⟨r, hr, wrote⟩)
    · exact last.cells i (.inl same)
    · exact last.cells i (.inr ⟨r, List.mem_reverse.1 hr, wrote⟩)

/-- The memories differ in the cell the pointer leads to, which is written before it is read, and in
one that is never read. The jump goes where a cell says that was only written on the way. -/
theorem run_depends_on_reads_pointer :
    let l : Layout := ⟨6, ⟨2, 4⟩, ⟨4, 6⟩⟩
    let p : Program := ⟨#[⟨.writeC, 0, 3, 0⟩, ⟨.add, 1, 4, 2⟩, ⟨.jmp, 4, 0, 0⟩, ⟨.rev, 2, 0, 0⟩]⟩
    let a : Machine := ⟨l, ⟨#[4, 7, 0, 0, 0, 0]⟩, p, 0, [], [], []⟩
    let b : Machine := ⟨l, ⟨#[4, 7, 0, 0, 9, 8]⟩, p, 0, [], [], []⟩
    (a.run 5).2 = ⟨4, true⟩ ∧ (b.run 5).2 = ⟨4, true⟩ ∧ (a.run 5).1.memory = ⟨#[4, 7, -11, 0, 3, 0]⟩ ∧
      (b.run 5).1.memory.get? 4 = some 3 := by
  intro l p a b
  have outcome : (a.run 5).2 = ⟨4, true⟩ := by decide +kernel
  have memory : (a.run 5).1.memory = ⟨#[4, 7, -11, 0, 3, 0]⟩ := by decide +kernel
  -- every place of the trace, with every cell read there
  have checked : ∀ i < (a.run 5).1.history.length, ∀ r ∈ (a.run 5).1.history[i]?,
      r.footprint.read.toList.all (fun x => decide
        ((∀ r' ∈ (a.run 5).1.history.take i, ¬ x ∈ r'.footprint.write.toList) →
          a.memory.get? x.toNat = b.memory.get? x.toNat)) = true := by decide +kernel
  have same := run_depends_on_reads (a := a) (b := b) rfl rfl rfl rfl rfl 5 (by
    intro earlier r later split x read unwritten
    have reads := checked earlier.length (by rw [split]; simp) r (by rw [split]; simp)
    refine of_decide_eq_true (List.all_eq_true.1 reads x read) ?_
    rw [split, List.take_left]
    exact unwritten)
  obtain ⟨r, step, wrote⟩ : ∃ r ∈ (a.run 5).1.history, (4 : Size) ∈ r.footprint.write.toList := by
    decide +kernel
  have cell := same.2.2.2 4 (.inr ⟨r, step, 4, wrote, rfl⟩)
  rw [memory] at cell
  exact ⟨outcome, same.1.symm.trans outcome, memory, cell.symm⟩

end Machine

end Retrace
