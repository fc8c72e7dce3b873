/-!
# Ordered sets

A finite set held as its members in strictly ascending order, so that equal sets are equal values
and a set has one way to be written out.

* `OrderedSet` : the type; `x ∈ s` : membership;
* `OrderedSet.insert`, `OrderedSet.ofList` : `mem_insert`, `mem_ofList`.
-/

namespace Retrace

/-- A finite set, as the ascending list of its members. -/
structure OrderedSet (α : Type) [LT α] where
  toList : List α
  ascending : toList.Pairwise (· < ·)

namespace OrderedSet

variable {α : Type} [LT α]

/-- Puts `x` in its place in an ascending list, unless it is there. -/
def place [DecidableLT α] (x : α) : List α → List α
  | [] => [x]
  | y :: rest =>
    if x < y then x :: y :: rest
    else if y < x then y :: place x rest
    else y :: rest

theorem eq_or_mem_of_mem_place [DecidableLT α] {x z : α} {l : List α} (h : z ∈ place x l) :
    z = x ∨ z ∈ l := by
  induction l with
  | nil => simpa [place] using h
  | cons y rest ih =>
    unfold place at h
    split at h
    · simpa using h
    · split at h
      · rcases List.mem_cons.1 h with rfl | h
        · simp
        · rcases ih h with rfl | h <;> simp [*]
      · exact .inr h

theorem mem_place [DecidableLT α] [LE α] [Std.LawfulOrderLT α] [Std.IsLinearOrder α] {x z : α}
    {l : List α} : z ∈ place x l ↔ z = x ∨ z ∈ l := by
  refine ⟨eq_or_mem_of_mem_place, fun h => ?_⟩
  induction l with
  | nil => simpa [place] using h
  | cons y rest ih =>
    unfold place
    split
    · simpa using h
    · next hxy =>
      split
      · rcases h with h | h
        · exact List.mem_cons_of_mem y (ih (.inl h))
        · rcases List.mem_cons.1 h with h | h
          · exact List.mem_cons.2 (.inl h)
          · exact List.mem_cons_of_mem y (ih (.inr h))
      · next hyx =>
        rcases h with h | h
        · have hxy : x = y := by
            rcases Std.lt_trichotomy x y with lt | eq | gt
            · exact absurd lt hxy
            · exact eq
            · exact absurd gt hyx
          simp [h, hxy]
        · exact h

theorem pairwise_place [DecidableLT α] [LE α] [Std.LawfulOrderLT α] [Std.IsLinearOrder α] (x : α)
    {l : List α} (h : l.Pairwise (· < ·)) : (place x l).Pairwise (· < ·) := by
  induction l with
  | nil => simp [place]
  | cons y rest ih =>
    have ⟨hy, hrest⟩ := List.pairwise_cons.1 h
    unfold place
    split
    · next hxy =>
      refine List.pairwise_cons.2 ⟨fun z hz => ?_, h⟩
      rcases List.mem_cons.1 hz with rfl | hz
      · exact hxy
      · exact Std.lt_trans hxy (hy z hz)
    · split
      · next hyx =>
        refine List.pairwise_cons.2 ⟨fun z hz => ?_, ih hrest⟩
        rcases eq_or_mem_of_mem_place hz with rfl | hz
        · exact hyx
        · exact hy z hz
      · exact h

/-- The set without members. -/
def empty : OrderedSet α := ⟨[], .nil⟩

instance : Membership α (OrderedSet α) := ⟨fun s x => x ∈ s.toList⟩

theorem mem_def {s : OrderedSet α} {x : α} : x ∈ s ↔ x ∈ s.toList := Iff.rfl

@[simp] theorem not_mem_empty (x : α) : ¬ x ∈ (empty : OrderedSet α) := by
  simp [mem_def, empty]

variable [DecidableLT α] [LE α] [Std.LawfulOrderLT α] [Std.IsLinearOrder α]

/-- The set with `x` added. -/
def insert (s : OrderedSet α) (x : α) : OrderedSet α :=
  ⟨place x s.toList, pairwise_place x s.ascending⟩

/-- The set of the members of a list, in any order and with repeats. -/
def ofList (l : List α) : OrderedSet α :=
  l.foldl insert empty

@[simp] theorem mem_insert {s : OrderedSet α} {x z : α} : z ∈ s.insert x ↔ z = x ∨ z ∈ s :=
  mem_place

theorem mem_foldl_insert {l : List α} {s : OrderedSet α} {z : α} :
    z ∈ l.foldl insert s ↔ z ∈ l ∨ z ∈ s := by
  induction l generalizing s with
  | nil => simp
  | cons x rest ih => simp [ih, or_assoc, or_left_comm]

@[simp] theorem mem_ofList {l : List α} {z : α} : z ∈ ofList l ↔ z ∈ l := by
  simp [ofList, mem_foldl_insert]

end OrderedSet

instance {α : Type} [LT α] [DecidableEq α] : DecidableEq (OrderedSet α) := fun s t =>
  decidable_of_iff (s.toList = t.toList) (by cases s; cases t; simp)

end Retrace
