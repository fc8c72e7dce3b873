import Retrace.Proofs.Footprint
import Retrace.Proofs.Input

/-!
# More memory

A program that never tries the addresses behind its memory cannot tell whether there are cells.

* `Memory.grown` : a memory with zeros behind its last cell;
* `Footprint.Avoids` : no address outside the memory falls on one of the new cells;
  `Script.run_grown` : such a script does the same on the grown memory, to the new cells nothing;
* `Machine.grown`, `Machine.iterate_forward_grown` : so does such a run;
* `Machine.growth_invisible` : a larger machine takes the same steps to the same output.
-/

namespace Retrace

/-! ## Grown memories -/

namespace Memory

/-- The memory with `k` zeros behind its last cell. -/
def grown (m : Memory) (k : Nat) : Memory := ⟨m.cells ++ Array.replicate k 0⟩

@[simp] theorem size_grown (m : Memory) (k : Nat) : (m.grown k).size = m.size + k := by
  simp [grown, size]

theorem get?_grown (m : Memory) (k i : Nat) :
    (m.grown k).get? i = if i < m.size then m.get? i else if i < m.size + k then some 0 else none := by
  unfold grown get? size
  by_cases old : i < m.cells.size
  · rw [if_pos old, Array.getElem?_append_left old]
  · have new : i - m.cells.size < k ↔ i < m.cells.size + k := by omega
    rw [if_neg old, Array.getElem?_append_right (Nat.le_of_not_lt old), Array.getElem?_replicate]
    simp only [new]

theorem set_grown {m : Memory} {i : Nat} (h : i < m.size) (k : Nat) (v : Word) :
    (m.grown k).set i v = (m.set i v).grown k := by
  apply eq_of_get?
  intro j
  rw [get?_set, get?_grown, get?_grown, size_set, size_grown, get?_set]
  split_ifs <;> first | rfl | omega

theorem slot?_grown_of_hit {m : Memory} {a : Word} {i : Nat} (h : m.slot? a = some i) (k : Nat) :
    (m.grown k).slot? a = some i := by
  rw [slot?_eq_some_iff] at h ⊢
  rw [size_grown]
  omega

theorem slot?_grown_of_miss {m : Memory} {a : Word} {k : Nat} (h : m.slot? a = none)
    (free : ¬ ((m.size : Int) ≤ a.toInt ∧ a.toInt < m.size + k)) : (m.grown k).slot? a = none := by
  rw [slot?_eq_none_iff] at h ⊢
  rw [size_grown]
  omega

theorem fetch_grown_of_hit {m : Memory} {a : Word} {i : Nat} (h : m.slot? a = some i) (k : Nat) :
    (m.grown k).fetch a = m.fetch a := by
  have inside := (slot?_eq_some h).1
  simp only [fetch, h, slot?_grown_of_hit h, get?_grown, if_pos inside]

end Memory

/-! ## Scripts on grown memories -/

/-- None of the addresses tried outside a memory of `n` cells names one of the `k` cells behind it. -/
def Footprint.Avoids (n k : Nat) (f : Footprint) : Prop :=
  ∀ a ∈ f.outOfBounds, ¬ ((n : Int) ≤ a.toInt ∧ a.toInt < n + k)

theorem Footprint.Avoids.mono {n k : Nat} {f g : Footprint} (h : g.Avoids n k) (within : f.Within g) :
    f.Avoids n k :=
  fun a ha => h a (within.outOfBounds a ha)

namespace Transaction

/-- The transaction with zeros behind the last cell of its memory. -/
abbrev grown (t : Transaction) (k : Nat) : Transaction := { t with memory := t.memory.grown k }

/-- A miss is noted, so it falls on none of the new cells and is a miss on the grown memory too. -/
theorem slot?_grown_of_avoids {t : Transaction} {k : Nat} {a : Word} (miss : t.memory.slot? a = none)
    (avoids : (t.miss a).footprint.Avoids t.memory.size k) : (t.grown k).memory.slot? a = none :=
  Memory.slot?_grown_of_miss miss (avoids a (OrderedSet.mem_insert.2 (.inl rfl)))

theorem read_grown {t : Transaction} {k : Nat} {a : Word}
    (avoids : (t.read a).2.footprint.Avoids t.memory.size k) :
    (t.grown k).read a = ((t.read a).1, (t.read a).2.grown k) := by
  cases h : t.memory.slot? a with
  | none =>
      rw [read_of_miss h] at avoids ⊢
      rw [read_of_miss (slot?_grown_of_avoids h avoids)]
      rfl
  | some i =>
      rw [read_of_hit h, read_of_hit (t := t.grown k) (Memory.slot?_grown_of_hit h k),
        Memory.fetch_grown_of_hit h]

theorem write_grown {t : Transaction} {k : Nat} {a v : Word}
    (avoids : (t.write a v).footprint.Avoids t.memory.size k) :
    (t.grown k).write a v = (t.write a v).grown k := by
  cases h : t.memory.slot? a with
  | none =>
      rw [write_of_miss h] at avoids ⊢
      rw [write_of_miss (slot?_grown_of_avoids h avoids)]
      rfl
  | some i =>
      have inside := (Memory.slot?_eq_some h).1
      rw [write_of_hit h, write_of_hit (t := t.grown k) (Memory.slot?_grown_of_hit h k),
        Memory.fetch_grown_of_hit h, Memory.set_grown inside]

end Transaction

theorem Script.run_grown {α : Type} (s : Script α) {t : Transaction} {k : Nat}
    (avoids : (s.run t).2.footprint.Avoids t.memory.size k) :
    s.run (t.grown k) = ((s.run t).1, (s.run t).2.grown k) := by
  induction s generalizing t with
  | done result => rfl
  | read a next ih =>
      have here : (t.read a).2.footprint.Avoids t.memory.size k := avoids.mono (Script.footprint_run _ _)
      unfold Script.run
      rw [Transaction.read_grown here]
      exact ih _ (by rw [Transaction.memory_read]; exact avoids)
  | write a v next ih =>
      have here : (t.write a v).footprint.Avoids t.memory.size k := avoids.mono (Script.footprint_run _ _)
      unfold Script.run
      rw [Transaction.write_grown here]
      exact ih (by rw [Transaction.memory_write, Memory.size_put]; exact avoids)

/-- A statement leaves the same record on the grown memory. -/
theorem Record.ofStatement_grown {m : Memory} {k : Nat} (counter : Word) (s : Statement)
    (avoids : (ofStatement m counter s).2.footprint.Avoids m.size k) :
    ofStatement (m.grown k) counter s =
      ((ofStatement m counter s).1.grown k, (ofStatement m counter s).2) := by
  have grows : s.script.run (.start (m.grown k)) = _ := s.script.run_grown (t := .start m) avoids
  unfold ofStatement Memory.transact
  rw [grows]

/-! ## Grown machines -/

namespace Layout

/-- The same spans in a memory of another size. -/
abbrev resized (l : Layout) (size : Size) : Layout := { l with size }

theorem validate_resized {l : Layout} {size : Size} (h : l.validate = .ok ()) (grows : l.size ≤ size) :
    (l.resized size).validate = .ok () := by
  rw [validate_eq_ok_iff] at h ⊢
  obtain ⟨some_cell, input, output⟩ := h
  rw [UInt64.le_iff_toNat_le] at grows
  have pos : l.size.toNat ≠ 0 := fun zero => some_cell (UInt64.toNat_inj.1 zero)
  refine ⟨fun zero => ?_, ?_, ?_⟩
  · have : size.toNat = 0 := congrArg UInt64.toNat zero
    omega
  · exact ⟨input.1, Nat.le_trans input.2 grows⟩
  · exact ⟨output.1, Nat.le_trans output.2 grows⟩

/-- The input span lies in the smaller memory, so the new cells start as zeros. -/
theorem initial_resized {l : Layout} {size : Size} (fits : l.input.stop.toNat ≤ l.size.toNat)
    (grows : l.size ≤ size) (values : List Word) :
    (l.resized size).initial values = (l.initial values).grown (size.toNat - l.size.toNat) := by
  rw [UInt64.le_iff_toNat_le] at grows
  apply Memory.eq_of_get?
  intro j
  rw [get?_initial, Memory.get?_grown, get?_initial, size_initial]
  show (if j < size.toNat then _ else _) = _
  by_cases old : j < l.size.toNat
  · rw [if_pos old, if_pos old, if_pos (show j < size.toNat by omega)]
  · have apart : ¬ (l.input.start.toNat ≤ j ∧ j < l.input.stop.toNat) := by omega
    have room : j < l.size.toNat + (size.toNat - l.size.toNat) ↔ j < size.toNat := by omega
    simp only [old, apart, room, if_false]

end Layout

namespace Machine

/-- The machine with as many zeros behind its memory as a memory of this size has room for. -/
def grown (m : Machine) (size : Size) : Machine :=
  { m with
    layout := m.layout.resized size
    memory := m.memory.grown (size.toNat - m.layout.size.toNat) }

theorem started_resized {l : Layout} {size : Size} (valid : l.validate = .ok ()) (grows : l.size ≤ size)
    (p : Program) (values : List Word) :
    started (l.resized size) p values = (started l p values).grown size := by
  unfold started grown
  rw [Layout.initial_resized (Layout.input_le_size valid) grows]

theorem forward_grown {m : Machine} {size : Size} (frontier : m.future = [])
    (fits : m.memory.size = m.layout.size.toNat)
    (avoids : ∀ r, m.forward.past = r :: m.past →
      r.footprint.Avoids m.layout.size.toNat (size.toNat - m.layout.size.toNat)) :
    (m.grown size).forward = m.forward.grown size := by
  unfold forward at avoids ⊢
  cases hs : m.program.get? m.counter with
  | none => rw [stepIn_of_end frontier hs, stepIn_of_end (m := m.grown size) frontier hs]
  | some s =>
      rw [stepIn_of_statement frontier hs] at avoids ⊢
      rw [stepIn_of_statement (m := m.grown size) frontier hs]
      have here : (Record.ofStatement m.memory m.counter s).2.footprint.Avoids m.memory.size
          (size.toNat - m.layout.size.toNat) := by
        rw [fits]
        exact avoids _ rfl
      unfold grown
      simp only [Record.ofStatement_grown m.counter s here]

theorem iterate_forward_grown {input : List Word} {m : Machine} (traces : m.Traces input)
    (frontier : m.future = []) (size : Size) (n : Nat)
    (avoids : ∀ r ∈ (forward^[n] m).history,
      r.footprint.Avoids m.layout.size.toNat (size.toNat - m.layout.size.toNat)) :
    forward^[n] (m.grown size) = (forward^[n] m).grown size := by
  induction n with
  | zero => rfl
  | succ n ih =>
      rw [Function.iterate_succ_apply'] at avoids ⊢
      rw [Function.iterate_succ_apply']
      have grows : (forward^[n] m).history <+: (forward^[n] m).forward.history := (climbs_forward _).grows
      have layout : (forward^[n] m).layout = m.layout := (kept_iterate_forward n m).layout
      rw [ih fun r hr => avoids r (grows.subset hr)]
      refine forward_grown (future_iterate_forward frontier n) (traces.iterate_forward n).size_memory fun r step => ?_
      rw [layout]
      refine avoids r ?_
      rw [history, step]
      simp

theorem moves_grown {m : Machine} {size : Size} {n : Nat}
    (last : forward^[n] (m.grown size) = (forward^[n] m).grown size) : moves n (m.grown size) = moves n m := by
  apply moves_eq_of_cursor
  · rfl
  · rw [last]
    rfl

/-- The output span lies in the smaller memory. -/
theorem output_grown {m : Machine} (size : Size)
    (forward : m.layout.output.start.toNat ≤ m.layout.output.stop.toNat)
    (fits : m.layout.output.stop.toNat ≤ m.memory.size) : (m.grown size).output = m.output := by
  have room : m.layout.output.stop.toNat ≤ (m.grown size).memory.size := by
    simp only [grown, Memory.size_grown]
    omega
  have cells : m.layout.output.stop.toNat - m.memory.cells.size = 0 := Nat.sub_eq_zero_of_le fits
  rw [output_of_fits forward fits, output_of_fits (m := m.grown size) forward room]
  simp only [grown, Memory.grown]
  rw [Array.extract_append, cells]
  simp

/-- **More memory makes no difference to a program that does not touch it.** Let a machine take steps
from the start of a program, and let none of the addresses that its records show as outside the memory
be one of the cells that a larger memory has in addition. There is a machine with the larger memory and
the same spans exactly if that memory has fewer than `2 ^ 61` cells, and up to that many steps it
records the same, stands at the same counter, gives the same output and has the same memory with zeros
behind it. -/
theorem growth_invisible {layout : Layout} {small : Machine} (created : create layout = .ok small)
    (size : Size) (grows : layout.size ≤ size) (p : Program) (values : List Word) (k : Nat)
    (unseen : ∀ r ∈ (((small.load p).feed values).run k).1.history, ∀ a ∈ r.footprint.outOfBounds,
      ¬ ((layout.size.toNat : Int) ≤ a.toInt ∧ a.toInt < size.toNat)) :
    ((∃ large, create { layout with size } = .ok large) ↔ size.toNat < 2 ^ 61) ∧
    ∀ large, create { layout with size } = .ok large → ∀ j ≤ k,
      let s := ((small.load p).feed values).run j
      let l := ((large.load p).feed values).run j
      l.2 = s.2 ∧ l.1.history = s.1.history ∧ l.1.counter = s.1.counter ∧
        l.1.outputText = s.1.outputText ∧
        l.1.memory.cells = s.1.memory.cells ++ Array.replicate (size.toNat - layout.size.toNat) 0 := by
  have valid := validate_of_create created
  obtain rfl := create_eq_ok created
  have bound : layout.size.toNat ≤ size.toNat := UInt64.le_iff_toNat_le.1 grows
  obtain ⟨-, -, outward, inside⟩ := (Layout.validate_eq_ok_iff layout).1 valid
  have start (l : Layout) : ((boot l).load p).feed values = started l p values :=
    load_feed (Memory.size_zeros _) p values
  refine ⟨⟨?_, fun fits => ?_⟩, fun large enlarged j hj => ?_⟩
  · rintro ⟨large, enlarged⟩
    exact Memory.fits_iff.1 (fits_of_create enlarged)
  · exact ⟨_, create_of_fits (Layout.validate_resized valid grows) (Memory.fits_iff.2 fits)⟩
  · obtain rfl := create_eq_ok enlarged
    simp only [start, started_resized valid grows, run_fst, run_snd] at unseen ⊢
    have traces := traces_started layout p values
    have shorter : (forward^[j] (started layout p values)).history <+:
        (forward^[k] (started layout p values)).history := by
      obtain ⟨rest, rfl⟩ := Nat.exists_eq_add_of_le hj
      rw [Nat.add_comm, Function.iterate_add_apply]
      exact (climbs_iterate climbs_forward rest _).grows
    have same := iterate_forward_grown traces rfl size j fun r hr a ha seen =>
      unseen r (shorter.subset hr) a ha (by
        simp only [started] at seen
        omega)
    have layout_eq : (forward^[j] (started layout p values)).layout = layout :=
      (kept_iterate_forward j _).layout
    have fits : (forward^[j] (started layout p values)).layout.output.stop.toNat ≤
        (forward^[j] (started layout p values)).memory.size := by
      rw [(traces.iterate_forward j).size_memory, layout_eq]
      exact inside
    rw [same, moves_grown same]
    refine ⟨rfl, rfl, rfl, ?_, ?_⟩
    · rw [outputText, outputText, output_grown size (by rw [layout_eq]; exact outward) fits]
    · rw [grown, layout_eq]
      rfl

/-- The program reads before the first cell and writes behind the last one, at the address where it
goes on. Only the address 6, which it never tries, would tell the two memories apart. -/
theorem growth_invisible_strays :
    let layout : Layout := ⟨6, ⟨2, 4⟩, ⟨4, 6⟩⟩
    let p : Program := ⟨#[⟨.set, 4, -1, 0⟩, ⟨.writeC, 2, 9, 0⟩, ⟨.addC, 3, 1, 5⟩, ⟨.jmp, 2, 0, 0⟩]⟩
    let small := (((boot layout).load p).feed [7, 64]).run 5
    let large := (((boot { layout with size := 7 }).load p).feed [7, 64]).run 5
    small.2 = ⟨4, true⟩ ∧ small.1.memory = ⟨#[0, 0, 7, 64, 0, 65]⟩ ∧
      (∃ r ∈ small.1.history, (7 : Word) ∈ r.footprint.outOfBounds.toList) ∧
      large.1.memory = ⟨#[0, 0, 7, 64, 0, 65, 0]⟩ ∧
      large.2 = small.2 ∧ large.1.history = small.1.history ∧ large.1.outputText = small.1.outputText := by
  intro layout p small large
  have created : create layout = .ok (boot layout) := rfl
  have checked : small.1.history.all (fun r => r.footprint.outOfBounds.toList.all fun a =>
      decide ¬ ((layout.size.toNat : Int) ≤ a.toInt ∧ a.toInt < (7 : Size).toNat)) = true := by decide +kernel
  have unseen : ∀ r ∈ small.1.history, ∀ a ∈ r.footprint.outOfBounds.toList,
      ¬ ((layout.size.toNat : Int) ≤ a.toInt ∧ a.toInt < (7 : Size).toNat) := by
    simpa only [List.all_eq_true, decide_eq_true_eq] using checked
  have enlarged : create { layout with size := 7 } = .ok (boot { layout with size := 7 }) := rfl
  obtain ⟨-, same⟩ := growth_invisible created 7 (by decide) p [7, 64] 5 unseen
  obtain ⟨outcome, history, -, output, -⟩ := same _ enlarged 5 (Nat.le_refl 5)
  exact ⟨by decide +kernel, by decide +kernel, by decide +kernel, by decide +kernel, outcome, history, output⟩

end Machine

end Retrace
