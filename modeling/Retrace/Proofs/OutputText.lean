import Retrace.Proofs.Bounds

/-!
# The output as text

Text goes into the memory as code points and comes out of it as characters. The two spans may lie
anywhere: where they share a cell, the character fed there is the one that comes out.

* `Word.IsScalar`, `Word.Shows` : the words that are code points, and the character each word shows as;
* `Word.shows_toChar`, `Word.toChar_ofChar` : every word shows as one, and a code point as its character;
* `Machine.getElem?_outputText` : the output text, cell by cell;
* `Session.text_through` : what a session prints, after any operations and after text was fed to it.
-/

namespace Retrace

namespace Word

/-- A code point that is not a surrogate. -/
def IsScalar (w : Word) : Prop :=
  0 ≤ w.toInt ∧ w.toInt ≤ 0xD7FF ∨ 0xE000 ≤ w.toInt ∧ w.toInt ≤ 0x10FFFF

/-- The character of a code point, and the replacement character for every other word. -/
structure Shows (w : Word) (c : Char) : Prop where
  scalar : w.IsScalar → (c.toNat : Int) = w.toInt
  other : ¬ w.IsScalar → c.toNat = 0xFFFD

theorem isScalar_iff {w : Word} {n : Nat} (value : w.toInt = n) : w.IsScalar ↔ n.isValidChar := by
  unfold IsScalar Nat.isValidChar
  omega

theorem shows_toChar (w : Word) : w.Shows w.toChar := by
  unfold toChar
  cases index : w.index? with
  | none =>
    have negative : ¬ 0 ≤ w.toInt := fun sign => by
      rw [index?, if_pos sign] at index
      cases index
    refine ⟨fun scalar => absurd scalar ?_, fun _ => rfl⟩
    unfold IsScalar
    omega
  | some n =>
    have value := index?_eq_some_iff.1 index
    show Shows w (if n.isValidChar then Char.ofNat n else '�')
    split_ifs with valid
    · refine ⟨fun _ => ?_, fun other => absurd ((isScalar_iff value).2 valid) other⟩
      rw [value, Char.ofNat, dif_pos valid]
      rfl
    · exact ⟨fun scalar => absurd ((isScalar_iff value).1 scalar) valid, fun _ => rfl⟩

theorem toInt_ofChar (c : Char) : (ofChar c).toInt = c.toNat := by
  have valid : c.toNat.isValidChar := c.valid
  unfold Nat.isValidChar at valid
  exact Int32.toInt_ofNat_of_lt (by omega)

/-- A character that was encoded is shown as itself. -/
theorem toChar_ofChar (c : Char) : (ofChar c).toChar = c := by
  have value := toInt_ofChar c
  have shown := (ofChar c).shows_toChar.scalar ((isScalar_iff value).2 c.valid)
  rw [value] at shown
  exact Char.toNat_inj.1 (Int.ofNat.inj shown)

end Word

namespace Machine

section Output

variable {m : Machine} (forward : m.layout.output.start.toNat ≤ m.layout.output.stop.toNat)
  (inside : m.layout.output.stop.toNat ≤ m.memory.size)

include forward inside

theorem length_outputText :
    m.outputText.toList.length = m.layout.output.stop.toNat - m.layout.output.start.toNat := by
  rw [outputText, String.toList_ofList, List.length_map, length_output forward inside]
  rfl

/-- The output text, cell by cell. -/
theorem getElem?_outputText {x : Nat} (low : m.layout.output.start.toNat ≤ x)
    (high : x < m.layout.output.stop.toNat) :
    m.outputText.toList[x - m.layout.output.start.toNat]? = (m.memory.get? x).map Word.toChar := by
  have last : min m.layout.output.stop.toNat m.memory.cells.size = m.layout.output.stop.toNat :=
    Nat.min_eq_left inside
  rw [outputText, String.toList_ofList, List.getElem?_map, output_of_fits forward inside, Array.getElem?_toList,
    Array.getElem?_extract, last, if_pos (by omega), Nat.add_sub_cancel' low]
  rfl

end Output

/-- Text that was encoded, past its end too, is shown as itself. -/
theorem toChar_getD_codes (t : String) (i : Nat) :
    ((codes t).getD i 0).toChar = t.toList.getD i '\x00' := by
  rw [codes, List.getD_eq_getElem?_getD, List.getD_eq_getElem?_getD, List.getElem?_map]
  cases t.toList[i]? with
  | none => rfl
  | some c => exact Word.toChar_ofChar c

theorem Traces.memory_of_fresh {input : List Word} {m : Machine} (h : Traces input m) (fresh : m.history = []) :
    m.memory = m.layout.initial input := by
  have start : m.cursor = 0 := by
    have bound := m.cursor_le_length
    rw [fresh] at bound
    exact Nat.le_zero.1 bound
  have state := h.state
  rw [start] at state
  exact (congrArg Interpreter.memory (Option.some.inj state)).symm

theorem layout_feed (m : Machine) (values : List Word) : (m.feed values).layout = m.layout := by
  unfold feed
  split <;> rfl

theorem history_feed (m : Machine) (values : List Word) : (m.feed values).history = m.history := by
  unfold feed
  split <;> rfl

/-- With text as its input and nothing recorded, a machine shows the text where its spans overlap. -/
theorem Traces.getElem?_outputText_codes {t : String} {m : Machine} (h : Traces (codes t) m)
    (fresh : m.history = []) (forward : m.layout.output.start.toNat ≤ m.layout.output.stop.toNat)
    (inside : m.layout.output.stop.toNat ≤ m.memory.size) {x : Nat} (low : m.layout.output.start.toNat ≤ x)
    (high : x < m.layout.output.stop.toNat) :
    m.outputText.toList[x - m.layout.output.start.toNat]? =
      some (if m.layout.input.start.toNat ≤ x ∧ x < m.layout.input.stop.toNat then
        t.toList.getD (x - m.layout.input.start.toNat) '\x00' else '\x00') := by
  have size := h.size_memory
  rw [getElem?_outputText forward inside low high, h.memory_of_fresh fresh, Layout.get?_initial,
    if_pos (by omega), Option.map_some, apply_ite Word.toChar, toChar_getD_codes]
  rfl

end Machine

namespace Session

theorem Reachable.output_fits {s : Session} (h : s.Reachable) :
    s.machine.layout.output.start.toNat ≤ s.machine.layout.output.stop.toNat ∧
      s.machine.layout.output.stop.toNat ≤ s.machine.memory.size := by
  obtain ⟨-, -, forward, inside⟩ := (Layout.validate_eq_ok_iff _).1 h.validate
  obtain ⟨input, traces⟩ := h.traces
  rw [traces.size_memory]
  exact ⟨forward, inside⟩

theorem Reachable.perform {s : Session} (h : s.Reachable) (op : Operation) : (s.perform op).1.Reachable := by
  obtain ⟨layout, m, ops, created, rfl⟩ := h
  exact ⟨layout, m, ops ++ [op], created, performAll_append _ ops [op]⟩

theorem Reachable.fed {s : Session} (h : s.Reachable) (fresh : s.machine.history = []) (t : String) :
    let m := (s.perform (.feed (Machine.codes t))).1.machine
    m.layout = s.machine.layout ∧ m.history = [] ∧ m.Traces (Machine.codes t) := by
  intro m
  obtain ⟨input, traces⟩ := h.traces
  have machine : m = s.machine.feed (Machine.codes t) := s.machine_perform (.feed (Machine.codes t))
  rw [machine]
  exact ⟨s.machine.layout_feed _, (s.machine.history_feed _).trans fresh, traces.feed_fresh fresh _⟩

/-- **Text goes through.** The output text of a session has a character for every cell of the output span:
the one with the code point in that cell, or the replacement character if it is none. What is printed is this
text without the null characters at its end. While nothing is recorded, text fed to the session is what the
output text shows where the spans overlap, and null characters are all else. -/
theorem text_through {s : Session} (reachable : s.Reachable) :
    let l := s.machine.layout
    let out := s.machine.outputText.toList
    (out.length = l.output.stop.toNat - l.output.start.toNat ∧
      ∀ x, l.output.start.toNat ≤ x → x < l.output.stop.toNat →
        ∃ w c, s.machine.memory.get? x = some w ∧ out[x - l.output.start.toNat]? = some c ∧ w.Shows c) ∧
      (∃ nulls, out = s.machine.renderedOutput.toList ++ List.replicate nulls '\x00') ∧
      s.machine.renderedOutput.toList.getLast? ≠ some '\x00' ∧
      (s.machine.history = [] → ∀ t : String,
        let fed := (s.perform (.feed (Machine.codes t))).1.machine.outputText.toList
        fed.length = l.output.stop.toNat - l.output.start.toNat ∧
          ∀ x, l.output.start.toNat ≤ x → x < l.output.stop.toNat →
            fed[x - l.output.start.toNat]? =
              some (if l.input.start.toNat ≤ x ∧ x < l.input.stop.toNat then
                t.toList.getD (x - l.input.start.toNat) '\x00' else '\x00')) := by
  intro l out
  obtain ⟨forward, inside⟩ := reachable.output_fits
  refine ⟨⟨Machine.length_outputText forward inside, fun x low high => ?_⟩,
    Text.toList_dropTrailingNulls _, Text.getLast?_dropTrailingNulls _, fun fresh t => ?_⟩
  · obtain ⟨w, cell⟩ : ∃ w, s.machine.memory.get? x = some w :=
      ⟨_, Array.getElem?_eq_getElem (Nat.lt_of_lt_of_le high inside)⟩
    have shown : out[x - l.output.start.toNat]? = (s.machine.memory.get? x).map Word.toChar :=
      Machine.getElem?_outputText forward inside low high
    rw [cell] at shown
    exact ⟨w, w.toChar, cell, shown, w.shows_toChar⟩
  · obtain ⟨layout, blank, traces⟩ := reachable.fed fresh t
    obtain ⟨forward, inside⟩ := (reachable.perform (.feed (Machine.codes t))).output_fits
    rw [show l = _ from layout.symm]
    exact ⟨Machine.length_outputText forward inside,
      fun x low high => traces.getElem?_outputText_codes blank forward inside low high⟩

/-- The spans overlap in three cells, and a longer text was fed before. One character of the new one lies
before the output span, one in it, and nothing is left of the old one. -/
theorem text_through_overlap :
    let s := (ofMachine (.boot ⟨8, ⟨1, 5⟩, ⟨2, 7⟩⟩)).performAll [.feed (Machine.codes "stale")]
    let fed := (s.perform (.feed (Machine.codes "aé"))).1.machine.outputText.toList
    s.Reachable ∧ s.machine.history = [] ∧ fed.length = 5 ∧ fed[0]? = some 'é' ∧ fed[1]? = some '\x00' ∧
      fed[4]? = some '\x00' := by
  intro s fed
  have reachable : s.Reachable := ⟨⟨8, ⟨1, 5⟩, ⟨2, 7⟩⟩, _, _, rfl, rfl⟩
  have fresh : s.machine.history = [] := rfl
  obtain ⟨-, -, -, through⟩ := text_through reachable
  obtain ⟨length, shown⟩ := through fresh "aé"
  exact ⟨reachable, fresh, length, (shown 2 (by decide) (by decide)).trans (by decide),
    (shown 3 (by decide) (by decide)).trans (by decide), (shown 6 (by decide) (by decide)).trans (by decide)⟩

end Session

end Retrace
