import Retrace.Proofs.Commands

/-!
# JSON loses nothing

* `Codec.Lossless` : what is written of a value is read back, from whatever form it came;
* `Codec.json_lossless` : nothing is lost of any type, nor of a printed trace.
-/

namespace Retrace

open Json

namespace Codec

open Lawful

/-- Writing and reading back gives the value; whatever form it was read from, what is then written
is read as the same value and written the same again. -/
structure Lossless (α : Type) [Codec α] [Lawful α] : Prop where
  accepted : ∀ (j : Json) (v : α), decode j = some v ↔ Form v j
  returned : ∀ v : α, decode (encode v) = some v
  settled : ∀ (j : Json) (v : α), decode j = some v →
    decode (encode v) = some v ∧ (decode (encode v) : Option α).map encode = some (encode v)

theorem lossless (α : Type) [Codec α] [Lawful α] : Lossless α where
  accepted _ _ := decode_iff
  returned := decode_encode
  settled _ v _ := ⟨decode_encode v, by rw [decode_encode, Option.map_some]⟩

theorem stdout_trace {content : FileContent} {p : Program} (holds : FileContent.Holds content p)
    {o : MachineOptions} {m : Machine} {outcome : RunOutcome} (executed : o.execute p = .ok (m, outcome))
    (file : String) :
    ((Task.trace o true).respond file content).stdout = (m.traceJson outcome).pretty ++ "\n" := by
  rw [Task.respond_of_holds holds, Task.onProgram, Task.executed, executed]
  change (Task.finish o m outcome _).stdout = _
  rw [Task.finish_eq]

/-- **JSON loses nothing.** Every type with a JSON form is read from exactly its forms and comes back
as it was. A trace printed as JSON is the text of one JSON value only, and the history in it is read
as the history of the machine. -/
theorem json_lossless :
    (Lossless Opcode ∧ Lossless Operator ∧ Lossless Family ∧ Lossless OperandKind ∧ Lossless InputForm ∧
      Lossless Effect ∧ Lossless Flow) ∧
    (Lossless Statement ∧ Lossless Program ∧ Lossless Layout ∧ Lossless Write ∧ Lossless Commit ∧
      Lossless Footprint ∧ Lossless Record) ∧
    ∀ file content p o m outcome, FileContent.Holds content p → MachineOptions.execute o p = .ok (m, outcome) →
      ∃ j history, (∀ j' : Json, j'.Proper ∧
          j'.pretty ++ "\n" = ((Task.trace o true).respond file content).stdout ↔ j' = j) ∧
        Parts ["history"] [history] j ∧ decode history = some m.history := by
  refine ⟨⟨lossless _, lossless _, lossless _, lossless _, lossless _, lossless _, lossless _⟩,
    ⟨lossless _, lossless _, lossless _, lossless _, lossless _, lossless _, lossless _⟩, ?_⟩
  intro file content p o m outcome holds executed
  rw [stdout_trace holds executed]
  exact ⟨m.traceJson outcome, encode m.history, Task.traceJson_unique m outcome, parts_obj rfl,
    decode_encode m.history⟩

/-- A statement with values in spare slots, given by position, and the trace of one step. -/
theorem json_lossless_spareSlots :
    let j : Json := .arr [.obj [("JmpC", .null)], .arr [.int 1, .int 2, .int (-3)]]
    let s : Statement := ⟨.jmpC, 1, 2, -3⟩
    let o : MachineOptions := ⟨none, 2, 4, none, none⟩
    let content : FileContent := .ok "setc 0 1".toUTF8
    let p : Program := ⟨#[⟨.setC, 0, 1, 0⟩]⟩
    let m := ((Machine.started o.requested p o.values).run 2).1
    decode j = some s ∧ decode (encode s) = some s ∧
      ∃ j history, j.pretty ++ "\n" = ((Task.trace o true).respond "one.s" content).stdout ∧
        Parts ["history"] [history] j ∧ decode history = some m.history := by
  intro j s o content p m
  have read : decode j = some s := by decide +kernel
  have holds : FileContent.Holds content p := ⟨"setc 0 1", rfl, by decide +kernel⟩
  have executed := MachineOptions.execute_of_fits (o := o) (by decide +kernel) (by decide +kernel) p
  obtain ⟨-, ⟨statement, -⟩, trace⟩ := json_lossless
  obtain ⟨j', history, unique, parts, decoded⟩ := trace "one.s" content p o m _ holds executed
  exact ⟨read, (statement.settled j s read).1, j', history, ((unique j').2 rfl).2, parts, decoded⟩

end Codec

end Retrace
