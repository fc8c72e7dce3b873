import Mathlib.Data.List.Nodup
import Mathlib.Data.List.Sort
import Retrace.Json.Codec
import Retrace.Proofs.JsonText

/-!
# JSON forms

What JSON a value is read from, said apart from the readers.

* `Json.Chooses` : the two ways to write a choice; `Json.Parts` : the two ways to write a structure;
* `Codec.Lawful` : a type whose reader accepts exactly the forms of its values, of which the
  written one is one; an instance for every type with a JSON form;
* `Codec.decode_encode` : what is written is read back.
-/

namespace Retrace

namespace Json

/-! ## Choices and structures -/

/-- `j` names a choice and gives its payload: as the only member of an object, or, for the payload
`null`, as a bare name. -/
def Chooses (name : String) (payload j : Json) : Prop :=
  j = .obj [(name, payload)] ∨ payload = .null ∧ j = .str name

/-- `j` holds parts with these names: each as the only member with its name of an object, which may
have others, or all in an array. -/
def Parts (names : List String) (parts : List Json) (j : Json) : Prop :=
  (j = .arr parts ∧ parts.length = names.length) ∨
    ∃ fields, j = .obj fields ∧ names.Forall₂ (fun name part => fields.filter (·.1 = name) = [(name, part)]) parts

theorem isNull_iff (j : Json) : j.isNull = true ↔ j = .null := by
  cases j <;> simp [isNull]

theorem variant?_eq_some_iff {j payload : Json} {name : String} :
    j.variant? = some (name, payload) ↔ Chooses name payload j := by
  unfold variant? Chooses
  split
  · next name' => grind
  · next name' payload' => grind
  · next other bare => grind

theorem member?_eq_some_iff {fields : List (String × Json)} {name : String} {part : Json} :
    member? fields name = some part ↔ fields.filter (·.1 = name) = [(name, part)] := by
  unfold member?
  split
  · next key value only =>
    have named : key = name := by
      have member : (key, value) ∈ fields.filter (·.1 = name) := by simp [only]
      simpa using (List.mem_filter.1 member).2
    simp [only, named]
  · next other =>
    simp only [reduceCtorEq, false_iff]
    exact other name part

theorem members?_eq_some_iff {fields : List (String × Json)} {names : List String} {parts : List Json} :
    members? fields names = some parts ↔
      names.Forall₂ (fun name part => fields.filter (·.1 = name) = [(name, part)]) parts := by
  induction names generalizing parts with
  | nil => simp [members?, eq_comm]
  | cons name rest ih =>
      simp only [members?, Option.bind_eq_bind, Option.bind_eq_some_iff, Option.pure_def, Option.some.injEq, ih,
        member?_eq_some_iff]
      constructor
      · rintro ⟨part, found, parts', others, rfl⟩
        exact .cons found others
      · rintro (_ | ⟨found, others⟩)
        exact ⟨_, found, _, others, rfl⟩

theorem slots?_eq_some_iff {names : List String} {parts : List Json} {j : Json} :
    j.slots? names = some parts ↔ Parts names parts j := by
  unfold slots? Parts
  split
  · next fields => simp [members?_eq_some_iff]
  · next items => grind
  · next other array => grind

theorem parts_obj {fields : List (String × Json)} {names : List String} {parts : List Json}
    (found : members? fields names = some parts) : Parts names parts (.obj fields) :=
  slots?_eq_some_iff.1 found

theorem Parts.length {names : List String} {parts : List Json} {j : Json} (h : Parts names parts j) :
    parts.length = names.length := by
  rcases h with ⟨-, length⟩ | ⟨fields, -, found⟩
  · exact length
  · exact found.length_eq.symm

/-- Some parts with these names, taken one by one, are as `P` says. -/
def ForSome : List String → (List Json → Prop) → Prop
  | [], P => P []
  | _ :: names, P => ∃ part, ForSome names fun parts => P (part :: parts)

theorem forSome_iff {names : List String} {P : List Json → Prop} :
    ForSome names P ↔ ∃ parts, parts.length = names.length ∧ P parts := by
  induction names generalizing P with
  | nil => simp [ForSome]
  | cons name rest ih =>
      simp only [ForSome, ih, List.length_cons]
      constructor
      · rintro ⟨part, parts, length, held⟩
        exact ⟨part :: parts, congrArg Nat.succ length, held⟩
      · rintro ⟨_ | ⟨part, parts⟩, length, held⟩
        · cases length
        · exact ⟨part, parts, Nat.succ.inj length, held⟩

/-- The shape of every reader of a structure. -/
theorem slots?_bind_eq_some_iff {α : Type} {names : List String} {j : Json} {v : α}
    {read : List Json → Option α} :
    (j.slots? names).bind read = some v ↔
      ForSome names fun parts => Parts names parts j ∧ read parts = some v := by
  rw [forSome_iff]
  simp only [Option.bind_eq_some_iff, slots?_eq_some_iff]
  constructor
  · rintro ⟨parts, held, value⟩
    exact ⟨parts, held.length, held, value⟩
  · rintro ⟨parts, -, held, value⟩
    exact ⟨parts, held, value⟩

end Json

open Json

theorem Size.ofNat?_eq_some_iff {n : Nat} {v : Size} : Size.ofNat? n = some v ↔ v.toNat = n := by
  unfold ofNat?
  constructor
  · intro h
    split_ifs at h with range
    cases h
    exact UInt64.toNat_ofNat_of_lt' range
  · rintro rfl
    rw [if_pos v.toNat_lt, UInt64.ofNat_toNat]

section OrderedSet

variable {α : Type} [LT α] [LE α] [Std.LawfulOrderLT α] [Std.IsLinearOrder α]

/-- A set is known by its members. -/
theorem OrderedSet.ext_mem {s t : OrderedSet α} (h : ∀ x, x ∈ s ↔ x ∈ t) : s = t := by
  obtain ⟨l, ascending⟩ := s
  obtain ⟨l', ascending'⟩ := t
  have : l = l' := ascending.eq_of_mem_iff ascending' h
  subst this
  rfl

theorem OrderedSet.ofList_eq_iff [DecidableLT α] {l : List α} {s : OrderedSet α} :
    ofList l = s ↔ ∀ x, x ∈ s ↔ x ∈ l := by
  constructor
  · rintro rfl x
    exact mem_ofList
  · intro h
    exact ext_mem fun x => mem_ofList.trans (h x).symm

end OrderedSet

/-! ## Lawful codecs -/

/-- A type that is read from exactly the forms of its values. What is written is a form. -/
class Codec.Lawful (α : Type) [Codec α] where
  /-- The JSON that stands for a value. -/
  Form : α → Json → Prop
  decode_iff : ∀ {j : Json} {v : α}, decode j = some v ↔ Form v j
  form_encode : ∀ v : α, Form v (encode v)
  proper_encode : ∀ v : α, (encode v).Proper

namespace Codec

open Lawful

variable {α : Type}

theorem decode_encode [Codec α] [Lawful α] (v : α) : decode (encode v) = some v :=
  decode_iff.2 (form_encode v)

instance : Lawful Word where
  Form w j := j = .int w.toInt
  decode_iff := by
    intro j v
    cases j with
    | int n => exact Word.ofInt?_eq_some_iff.trans (by simp [eq_comm])
    | _ => simp [decode]
  form_encode w := rfl
  proper_encode w := trivial

instance : Lawful Size where
  Form n j := j = .int n.toNat
  decode_iff := by
    intro j v
    cases j with
    | int n =>
        have read : (if 0 ≤ n then Size.ofNat? n.toNat else none) = some v ↔ n = v.toNat := by
          split_ifs with sign
          · rw [Size.ofNat?_eq_some_iff]
            omega
          · simp only [false_iff]
            omega
        exact read.trans (by simp)
    | _ => simp [decode]
  form_encode n := rfl
  proper_encode n := trivial

theorem decodeAll_eq_some_iff [Codec α] [Lawful α] {items : List Json} {vs : List α} :
    decodeAll items = some vs ↔ vs.Forall₂ Form items := by
  induction items generalizing vs with
  | nil => simp [decodeAll, eq_comm]
  | cons item rest ih =>
      simp only [decodeAll, Option.bind_eq_bind, Option.bind_eq_some_iff, Option.pure_def, Option.some.injEq, ih,
        decode_iff]
      constructor
      · rintro ⟨v, form, vs', forms, rfl⟩
        exact .cons form forms
      · rintro (_ | ⟨form, forms⟩)
        exact ⟨_, form, _, forms, rfl⟩

theorem properItems_map [Codec α] [Lawful α] (vs : List α) : ProperItems (vs.map encode) := by
  induction vs with
  | nil => trivial
  | cons v rest ih => exact ⟨proper_encode v, ih⟩

instance [Codec α] [Lawful α] : Lawful (List α) where
  Form vs j := ∃ items, j = .arr items ∧ vs.Forall₂ Form items
  decode_iff := by
    intro j vs
    cases j with
    | arr items => exact decodeAll_eq_some_iff.trans (by simp)
    | _ => simp [decode]
  form_encode vs := ⟨vs.map encode, rfl, List.forall₂_map_right_iff.2 (List.forall₂_same.2 fun v _ => form_encode v)⟩
  proper_encode vs := properItems_map vs

instance [LT α] [DecidableLT α] [LE α] [Std.LawfulOrderLT α] [Std.IsLinearOrder α] [Codec α] [Lawful α] :
    Lawful (OrderedSet α) where
  Form s j := ∃ l : List α, Form l j ∧ ∀ x, x ∈ s ↔ x ∈ l
  decode_iff := by
    intro j s
    change (decode j).map OrderedSet.ofList = some s ↔ _
    simp only [Option.map_eq_some_iff, decode_iff, OrderedSet.ofList_eq_iff]
  form_encode s := ⟨s.toList, form_encode s.toList, fun x => OrderedSet.mem_def⟩
  proper_encode s := proper_encode s.toList

/-! ## Choices -/

theorem find?_tag {all : List α} {tag : α → String} (distinct : (all.map tag).Nodup) {name : String} {v : α} :
    (all.find? fun x => tag x = name) = some v ↔ v ∈ all ∧ tag v = name := by
  constructor
  · intro h
    exact ⟨List.mem_of_find?_eq_some h, by simpa using List.find?_some h⟩
  · rintro ⟨member, rfl⟩
    cases found : all.find? fun x => tag x = tag v with
    | none => exact absurd (decide_eq_true rfl) (List.find?_eq_none.1 found v member)
    | some w =>
        have same : tag w = tag v := by simpa using List.find?_some found
        rw [List.inj_on_of_nodup_map distinct (List.mem_of_find?_eq_some found) member same]

theorem decodeTag_eq_some_iff {all : List α} {tag : α → String} (distinct : (all.map tag).Nodup) {j : Json}
    {v : α} : decodeTag all tag j = some v ↔ v ∈ all ∧ Chooses (tag v) .null j := by
  unfold decodeTag
  simp only [Option.bind_eq_bind, Option.bind_eq_some_iff, Prod.exists, variant?_eq_some_iff]
  constructor
  · rintro ⟨name, payload, chooses, read⟩
    split_ifs at read with null
    obtain ⟨member, rfl⟩ := (find?_tag distinct).1 read
    rw [(isNull_iff payload).1 null] at chooses
    exact ⟨member, chooses⟩
  · rintro ⟨member, chooses⟩
    exact ⟨tag v, .null, chooses, (find?_tag distinct).2 ⟨member, rfl⟩⟩

/-- The forms of a choice without data. -/
theorem decodeTag_iff {all : List α} {tag : α → String} (distinct : (all.map tag).Nodup)
    (complete : ∀ v, v ∈ all) {j : Json} {v : α} : decodeTag all tag j = some v ↔ Chooses (tag v) .null j := by
  simp [decodeTag_eq_some_iff distinct, complete]

theorem chooses_str (name : String) : Chooses name .null (.str name) := .inr ⟨rfl, rfl⟩

theorem chooses_obj (name : String) (payload : Json) : Chooses name payload (.obj [(name, payload)]) := .inl rfl

instance : Lawful Opcode where
  Form op := Chooses op.tag .null
  decode_iff := decodeTag_iff (by decide) Opcode.mem_all
  form_encode op := chooses_str op.tag
  proper_encode op := trivial

instance : Lawful Operator where
  Form op := Chooses op.tag .null
  decode_iff := decodeTag_iff (by decide) (by intro op; cases op <;> decide)
  form_encode op := chooses_str op.tag
  proper_encode op := trivial

instance : Lawful Family where
  Form f := Chooses f.tag .null
  decode_iff := decodeTag_iff (by decide) (by intro f; cases f <;> decide)
  form_encode f := chooses_str f.tag
  proper_encode f := trivial

instance : Lawful OperandKind where
  Form k := Chooses k.tag .null
  decode_iff := decodeTag_iff (by decide) (by intro k; cases k <;> decide)
  form_encode k := chooses_str k.tag
  proper_encode k := trivial

instance : Lawful InputForm where
  Form f := Chooses f.tag .null
  decode_iff := decodeTag_iff (by decide) (by intro f; cases f <;> decide)
  form_encode f := chooses_str f.tag
  proper_encode f := trivial

theorem decodeBinary_eq_some_iff {j : Json} {e : Effect} :
    decodeBinary j = some e ↔
      ∃ x y op form, j = .arr [x, y] ∧ Form op x ∧ Form form y ∧ e = .binary op form := by
  unfold decodeBinary
  split
  · next x y =>
    simp only [Option.bind_eq_bind, Option.bind_eq_some_iff, Option.pure_def, Option.some.injEq, decode_iff]
    grind
  · next other =>
    simp only [reduceCtorEq, false_iff]
    rintro ⟨x, y, op, form, rfl, -⟩
    exact other x y rfl

instance : Lawful Effect where
  Form
    | .binary op form, j => ∃ x y, Chooses "Binary" (.arr [x, y]) j ∧ Form op x ∧ Form form y
    | e, j => Chooses e.tag .null j
  decode_iff := by
    intro j e
    change (j.variant?.bind fun (name, payload) =>
      if name = "Binary" then decodeBinary payload else decodeTag Effect.plain Effect.tag j) = some e ↔ _
    simp only [Option.bind_eq_some_iff, Prod.exists, variant?_eq_some_iff]
    constructor
    · rintro ⟨name, payload, chooses, read⟩
      split_ifs at read with binary
      · obtain ⟨x, y, op, form, rfl, hop, hform, rfl⟩ := decodeBinary_eq_some_iff.1 read
        exact ⟨x, y, binary ▸ chooses, hop, hform⟩
      · obtain ⟨member, named⟩ := (decodeTag_eq_some_iff (by decide)).1 read
        cases e with
        | binary op form => exact absurd member (by simp [Effect.plain])
        | _ => exact named
    · intro form
      cases e with
      | binary op f =>
          obtain ⟨x, y, chooses, hop, hform⟩ := form
          exact ⟨_, _, chooses, (if_pos rfl).trans (decodeBinary_eq_some_iff.2 ⟨x, y, op, f, rfl, hop, hform, rfl⟩)⟩
      | _ =>
          exact ⟨_, _, form, (if_neg (by decide)).trans
            ((decodeTag_eq_some_iff (by decide)).2 ⟨by decide, form⟩)⟩
  form_encode e := by
    cases e with
    | binary op form => exact ⟨_, _, chooses_obj _ _, form_encode op, form_encode form⟩
    | _ => exact chooses_str _
  proper_encode e := by
    cases e with
    | binary op form => exact ⟨⟨proper_encode op, proper_encode form, trivial⟩, trivial⟩
    | _ => trivial

instance : Lawful Flow where
  Form
    | .advance, j => Chooses "Advance" .null j
    | .jump target, j => ∃ payload, Chooses "Jump" payload j ∧ Form target payload
  decode_iff := by
    intro j f
    change (j.variant?.bind fun (name, payload) =>
      if name = "Jump" then (decode payload).map Flow.jump
      else if name = "Advance" ∧ payload.isNull then some Flow.advance else none) = some f ↔ _
    simp only [Option.bind_eq_some_iff, Prod.exists, variant?_eq_some_iff]
    constructor
    · rintro ⟨name, payload, chooses, read⟩
      split_ifs at read with jump advance
      · obtain ⟨target, form, rfl⟩ := Option.map_eq_some_iff.1 read
        exact ⟨payload, jump ▸ chooses, decode_iff.1 form⟩
      · cases read
        rw [advance.1, (isNull_iff payload).1 advance.2] at chooses
        exact chooses
    · intro form
      cases f with
      | advance => exact ⟨"Advance", .null, form, by decide⟩
      | jump target =>
          obtain ⟨payload, chooses, form⟩ := form
          exact ⟨"Jump", payload, chooses, by simp [decode_iff.2 form]⟩
  form_encode f := by
    cases f with
    | advance => exact chooses_str _
    | jump target => exact ⟨_, chooses_obj _ _, form_encode target⟩
  proper_encode f := by
    cases f with
    | advance => trivial
    | jump target => exact ⟨proper_encode target, trivial⟩

/-! ## Structures -/

theorem decodeSlots_eq_some_iff {j : Json} {a b c : Word} :
    decodeSlots j = some (a, b, c) ↔ ∃ x y z, j = .arr [x, y, z] ∧ Form a x ∧ Form b y ∧ Form c z := by
  unfold decodeSlots
  split
  · next x y z =>
    simp only [Option.bind_eq_bind, Option.bind_eq_some_iff, Option.pure_def, Option.some.injEq, Prod.mk.injEq,
      decode_iff]
    grind
  · next other =>
    simp only [reduceCtorEq, false_iff]
    rintro ⟨x, y, z, rfl, -⟩
    exact other x y z rfl

instance : Lawful Statement where
  Form s j := ∃ opcode x y z, Parts ["opcode", "args"] [opcode, .arr [x, y, z]] j ∧ Form s.opcode opcode ∧
    Form s.a x ∧ Form s.b y ∧ Form s.c z
  decode_iff := by
    intro j s
    refine slots?_bind_eq_some_iff.trans ?_
    simp only [ForSome, Option.bind_eq_bind, Option.bind_eq_some_iff, Option.pure_def, Option.some.injEq, Prod.exists,
      decode_iff, decodeSlots_eq_some_iff]
    grind
  form_encode s :=
    ⟨_, _, _, _, parts_obj rfl, form_encode s.opcode, form_encode s.a, form_encode s.b, form_encode s.c⟩
  proper_encode s :=
    ⟨⟨proper_encode s.a, proper_encode s.b, proper_encode s.c, trivial⟩, proper_encode s.opcode, trivial⟩

instance : Lawful Program where
  Form p j := ∃ statements, Parts ["statements"] [statements] j ∧ Form p.statements.toList statements
  decode_iff := by
    intro j p
    refine slots?_bind_eq_some_iff.trans ?_
    obtain ⟨statements⟩ := p
    simp only [ForSome, Option.bind_eq_bind, Option.bind_eq_some_iff, Option.pure_def, Option.some.injEq, decode_iff,
      Program.mk.injEq]
    grind
  form_encode p := ⟨_, parts_obj rfl, form_encode p.statements.toList⟩
  proper_encode p := ⟨proper_encode p.statements.toList, trivial⟩

theorem spanMembersOnly_iff (j : Json) :
    spanMembersOnly j = true ↔
      ∀ fields, j = .obj fields → ∀ member ∈ fields, member.1 = "start" ∨ member.1 = "end" := by
  cases j <;> simp [spanMembersOnly]

/-- Of a span no other member is accepted. -/
instance : Lawful Span where
  Form s j := ∃ start stop, Parts ["start", "end"] [start, stop] j ∧
    (∀ fields, j = .obj fields → ∀ member ∈ fields, member.1 = "start" ∨ member.1 = "end") ∧
    Form s.start start ∧ Form s.stop stop
  decode_iff := by
    intro j s
    refine slots?_bind_eq_some_iff.trans ?_
    simp only [ForSome, Option.ite_none_right_eq_some, Option.bind_eq_bind, Option.bind_eq_some_iff, Option.pure_def,
      Option.some.injEq, decode_iff, ← spanMembersOnly_iff]
    grind
  form_encode s := by
    refine ⟨_, _, parts_obj rfl, ?_, form_encode s.start, form_encode s.stop⟩
    rintro fields h
    cases h
    simp
  proper_encode s := ⟨proper_encode s.stop, proper_encode s.start, trivial⟩

instance : Lawful Layout where
  Form l j := ∃ size input output, Parts ["size", "input", "output"] [size, input, output] j ∧
    Form l.size size ∧ Form l.input input ∧ Form l.output output
  decode_iff := by
    intro j l
    refine slots?_bind_eq_some_iff.trans ?_
    simp only [ForSome, Option.bind_eq_bind, Option.bind_eq_some_iff, Option.pure_def, Option.some.injEq, decode_iff]
    grind
  form_encode l := ⟨_, _, _, parts_obj rfl, form_encode l.size, form_encode l.input, form_encode l.output⟩
  proper_encode l := ⟨proper_encode l.input, proper_encode l.output, proper_encode l.size, trivial⟩

instance : Lawful Write where
  Form w j := ∃ address new old, Parts ["address", "new_value", "old_value"] [address, new, old] j ∧
    Form w.address address ∧ Form w.newValue new ∧ Form w.oldValue old
  decode_iff := by
    intro j w
    refine slots?_bind_eq_some_iff.trans ?_
    simp only [ForSome, Option.bind_eq_bind, Option.bind_eq_some_iff, Option.pure_def, Option.some.injEq, decode_iff]
    grind
  form_encode w := ⟨_, _, _, parts_obj rfl, form_encode w.address, form_encode w.newValue, form_encode w.oldValue⟩
  proper_encode w := ⟨proper_encode w.address, proper_encode w.newValue, proper_encode w.oldValue, trivial⟩

instance : Lawful Commit where
  Form c j := ∃ records, Parts ["records"] [records] j ∧ Form c.records records
  decode_iff := by
    intro j c
    refine slots?_bind_eq_some_iff.trans ?_
    simp only [ForSome, Option.map_eq_some_iff, decode_iff]
    grind
  form_encode c := ⟨_, parts_obj rfl, form_encode c.records⟩
  proper_encode c := ⟨proper_encode c.records, trivial⟩

instance : Lawful Footprint where
  Form f j := ∃ read write strays, Parts ["read", "write", "out_of_bound"] [read, write, strays] j ∧
    Form f.read read ∧ Form f.write write ∧ Form f.outOfBounds strays
  decode_iff := by
    intro j f
    refine slots?_bind_eq_some_iff.trans ?_
    simp only [ForSome, Option.bind_eq_bind, Option.bind_eq_some_iff, Option.pure_def, Option.some.injEq, decode_iff]
    grind
  form_encode f := ⟨_, _, _, parts_obj rfl, form_encode f.read, form_encode f.write, form_encode f.outOfBounds⟩
  proper_encode f := ⟨proper_encode f.outOfBounds, proper_encode f.read, proper_encode f.write, trivial⟩

instance : Lawful Record where
  Form r j := ∃ statement before after commit footprint,
    Parts ["statement", "counter_before", "counter_after", "commit", "stat"]
      [statement, before, after, commit, footprint] j ∧
    Form r.statement statement ∧ Form r.before before ∧ Form r.after after ∧ Form r.commit commit ∧
    Form r.footprint footprint
  decode_iff := by
    intro j r
    refine slots?_bind_eq_some_iff.trans ?_
    simp only [ForSome, Option.bind_eq_bind, Option.bind_eq_some_iff, Option.pure_def, Option.some.injEq, decode_iff]
    grind
  form_encode r :=
    ⟨_, _, _, _, _, parts_obj rfl, form_encode r.statement, form_encode r.before, form_encode r.after,
      form_encode r.commit, form_encode r.footprint⟩
  proper_encode r :=
    ⟨proper_encode r.commit, proper_encode r.after, proper_encode r.before, proper_encode r.footprint,
      proper_encode r.statement, trivial⟩

end Codec

end Retrace
