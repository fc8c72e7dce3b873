import Retrace.Json.Basic
import Retrace.Machine

/-!
# JSON forms

The JSON form of every value that is kept or exchanged. A choice without data is its name; a
structure is an object with all its parts, the keys in alphabetical order. Reading also takes a
structure as an array of its parts in declaration order, and a set in any order with repeats.
-/

namespace Retrace

open Json

/-! ## Numbers and collections -/

instance : Codec Word where
  encode w := .int w.toInt
  decode
    | .int n => Word.ofInt? n
    | _ => none

instance : Codec Size where
  encode n := .int n.toNat
  decode
    | .int n => if 0 ≤ n then Size.ofNat? n.toNat else none
    | _ => none

/-- Reads every item of a list. -/
def decodeAll {α : Type} [Codec α] : List Json → Option (List α)
  | [] => some []
  | item :: rest => do
    let value ← decode item
    let values ← decodeAll rest
    return value :: values

instance {α : Type} [Codec α] : Codec (List α) where
  encode items := .arr (items.map encode)
  decode
    | .arr items => decodeAll items
    | _ => none

instance {α : Type} [LT α] [DecidableLT α] [LE α] [Std.LawfulOrderLT α] [Std.IsLinearOrder α]
    [Codec α] : Codec (OrderedSet α) where
  encode s := encode s.toList
  decode j := (decode j).map OrderedSet.ofList

/-! ## Choices -/

/-- The member of `all` whose tag a choice without data names. -/
def decodeTag {α : Type} (all : List α) (tag : α → String) (j : Json) : Option α := do
  let (name, payload) ← j.variant?
  if payload.isNull then all.find? fun x => tag x = name else none

instance : Codec Opcode where
  encode op := .str op.tag
  decode := decodeTag Opcode.all Opcode.tag

instance : Codec Operator where
  encode op := .str op.tag
  decode := decodeTag Operator.all Operator.tag

instance : Codec Family where
  encode f := .str f.tag
  decode := decodeTag Family.all Family.tag

instance : Codec OperandKind where
  encode k := .str k.tag
  decode := decodeTag OperandKind.all OperandKind.tag

instance : Codec InputForm where
  encode f := .str f.tag
  decode := decodeTag InputForm.all InputForm.tag

namespace Effect

/-- The effects that are not an operator's. -/
def plain : List Effect :=
  [copy, assign, invert, load, store, storeConst, jump, jumpConst, jumpIfNonZero]

def tag : Effect → String
  | copy => "CopyValue"
  | assign => "Assign"
  | binary .. => "Binary"
  | invert => "Invert"
  | load => "Load"
  | store => "Store"
  | storeConst => "StoreConst"
  | jump => "Jump"
  | jumpConst => "JumpConst"
  | jumpIfNonZero => "JumpIfNonZero"

end Effect

/-- The operator and the form of an operator's effect. -/
def decodeBinary : Json → Option Effect
  | .arr [op, form] => do
    let op ← decode op
    let form ← decode form
    return .binary op form
  | _ => none

instance : Codec Effect where
  encode
    | .binary op form => .obj [("Binary", .arr [encode op, encode form])]
    | e => .str e.tag
  decode j := do
    let (name, payload) ← j.variant?
    if name = "Binary" then decodeBinary payload else decodeTag Effect.plain Effect.tag j

instance : Codec Flow where
  encode
    | .advance => .str "Advance"
    | .jump target => .obj [("Jump", encode target)]
  decode j := do
    let (name, payload) ← j.variant?
    if name = "Jump" then (decode payload).map Flow.jump
    else if name = "Advance" ∧ payload.isNull then some .advance
    else none

/-! ## Structures -/

/-- The three slots of a statement. -/
def decodeSlots : Json → Option (Word × Word × Word)
  | .arr [a, b, c] => do
    let a ← decode a
    let b ← decode b
    let c ← decode c
    return (a, b, c)
  | _ => none

instance : Codec Statement where
  encode s :=
    .obj [("args", .arr [encode s.a, encode s.b, encode s.c]), ("opcode", encode s.opcode)]
  decode j := do
    match ← j.slots? ["opcode", "args"] with
    | [opcode, args] =>
      let opcode ← decode opcode
      let (a, b, c) ← decodeSlots args
      return ⟨opcode, a, b, c⟩
    | _ => none

instance : Codec Program where
  encode p := .obj [("statements", encode p.statements.toList)]
  decode j := do
    match ← j.slots? ["statements"] with
    | [statements] =>
      let statements : List Statement ← decode statements
      return ⟨statements.toArray⟩
    | _ => none

/-- Of a span no other member is accepted. -/
def spanMembersOnly : Json → Bool
  | .obj fields => fields.all fun (name, _) => name = "start" ∨ name = "end"
  | _ => true

instance : Codec Span where
  encode s := .obj [("end", encode s.stop), ("start", encode s.start)]
  decode j := do
    match ← j.slots? ["start", "end"] with
    | [start, stop] =>
      if spanMembersOnly j then
        let start ← decode start
        let stop ← decode stop
        return ⟨start, stop⟩
      else none
    | _ => none

instance : Codec Layout where
  encode l := .obj [("input", encode l.input), ("output", encode l.output), ("size", encode l.size)]
  decode j := do
    match ← j.slots? ["size", "input", "output"] with
    | [size, input, output] =>
      let size ← decode size
      let input ← decode input
      let output ← decode output
      return ⟨size, input, output⟩
    | _ => none

instance : Codec Write where
  encode w := .obj [("address", encode w.address), ("new_value", encode w.newValue),
    ("old_value", encode w.oldValue)]
  decode j := do
    match ← j.slots? ["address", "new_value", "old_value"] with
    | [address, newValue, oldValue] =>
      let address ← decode address
      let newValue ← decode newValue
      let oldValue ← decode oldValue
      return ⟨address, newValue, oldValue⟩
    | _ => none

instance : Codec Commit where
  encode c := .obj [("records", encode c.records)]
  decode j := do
    match ← j.slots? ["records"] with
    | [records] => (decode records).map Commit.mk
    | _ => none

instance : Codec Footprint where
  encode f := .obj [("out_of_bound", encode f.outOfBounds), ("read", encode f.read),
    ("write", encode f.write)]
  decode j := do
    match ← j.slots? ["read", "write", "out_of_bound"] with
    | [read, write, outOfBounds] =>
      let read ← decode read
      let write ← decode write
      let outOfBounds ← decode outOfBounds
      return ⟨read, write, outOfBounds⟩
    | _ => none

instance : Codec Record where
  encode r := .obj [("commit", encode r.commit), ("counter_after", encode r.after),
    ("counter_before", encode r.before), ("stat", encode r.footprint),
    ("statement", encode r.statement)]
  decode j := do
    match ← j.slots? ["statement", "counter_before", "counter_after", "commit", "stat"] with
    | [statement, before, after, commit, footprint] =>
      let statement ← decode statement
      let before ← decode before
      let after ← decode after
      let commit ← decode commit
      let footprint ← decode footprint
      return ⟨statement, before, after, commit, footprint⟩
    | _ => none

end Retrace
