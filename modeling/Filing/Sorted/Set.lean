import Filing.Sorted.Ascending

/-!
# Sorted sets

A finite set as the ascending list of its elements.  The order is part of the type, so the same
elements, put in in any order and any number of times, give the same set.

* `mem_insert`, `mem_erase`, `mem_union`, `mem_inter`, `mem_diff`, `mem_filter`: membership after
  each operation.
* `SortedSet.ext`: **membership decides equality**.
-/

namespace Filing

open Sorted

/-- Elements in strictly ascending order. -/
structure SortedSet (α : Type) [Ord α] where
  /-- The elements, smallest first. -/
  toList : List α
  /-- No element is repeated, and the elements ascend. -/
  ascending : Ascending id toList

namespace SortedSet

variable {α : Type} [Ord α]

theorem eq_of_toList_eq {s t : SortedSet α} (h : s.toList = t.toList) : s = t := by
  cases s
  cases t
  cases h
  rfl

instance [DecidableEq α] : DecidableEq (SortedSet α) := fun a b =>
  decidable_of_iff (a.toList = b.toList) ⟨eq_of_toList_eq, congrArg _⟩

/-- The set without elements. -/
def empty : SortedSet α := ⟨[], .nil⟩

instance : EmptyCollection (SortedSet α) := ⟨empty⟩

instance : Inhabited (SortedSet α) := ⟨empty⟩

instance : Membership α (SortedSet α) := ⟨fun s a => a ∈ s.toList⟩

instance [DecidableEq α] (a : α) (s : SortedSet α) : Decidable (a ∈ s) :=
  inferInstanceAs (Decidable (a ∈ s.toList))

def size (s : SortedSet α) : Nat := s.toList.length

def isEmpty (s : SortedSet α) : Bool := s.toList.isEmpty

/-- The elements that satisfy `p`. -/
def filter (s : SortedSet α) (p : α → Bool) : SortedSet α :=
  ⟨s.toList.filter p, s.ascending.filter p⟩

/-- Removes `a`. -/
def erase (s : SortedSet α) (a : α) : SortedSet α := s.filter fun x => compare x a != .eq

/-- The elements of both sets. -/
def inter [DecidableEq α] (s t : SortedSet α) : SortedSet α := s.filter fun x => x ∈ t

/-- The elements of `s` that are not in `t`. -/
def diff [DecidableEq α] (s t : SortedSet α) : SortedSet α := s.filter fun x => x ∉ t

variable [Std.TransOrd α] [Std.LawfulEqOrd α]

/-- Adds `a`. -/
def insert (s : SortedSet α) (a : α) : SortedSet α :=
  ⟨place id a s.toList, s.ascending.place a⟩

/-- Adds every element of a list. -/
def insertAll (s : SortedSet α) (l : List α) : SortedSet α := l.foldl insert s

/-- The set of the elements of a list. -/
def ofList (l : List α) : SortedSet α := empty.insertAll l

/-- The elements of either set. -/
def union (s t : SortedSet α) : SortedSet α := s.insertAll t.toList

/-! ## Membership -/

omit [Std.LawfulEqOrd α] in
/-- **Membership decides equality.** -/
theorem ext {s t : SortedSet α} (h : ∀ a, a ∈ s ↔ a ∈ t) : s = t :=
  eq_of_toList_eq (s.ascending.eq_of_mem_iff t.ascending h)

omit [Std.TransOrd α] [Std.LawfulEqOrd α] in
@[simp] theorem not_mem_empty (a : α) : a ∉ (empty : SortedSet α) := List.not_mem_nil

omit [Std.TransOrd α] [Std.LawfulEqOrd α] in
theorem not_mem_of_isEmpty {s : SortedSet α} (h : s.isEmpty = true) (a : α) : a ∉ s := by
  intro ha
  have hnil : s.toList = [] := List.isEmpty_iff.mp h
  exact List.ne_nil_of_mem ha hnil

omit [Std.TransOrd α] [Std.LawfulEqOrd α] in
@[simp] theorem mem_filter {s : SortedSet α} {p : α → Bool} {a : α} :
    a ∈ s.filter p ↔ a ∈ s ∧ p a = true := List.mem_filter

@[simp] theorem mem_insert {s : SortedSet α} {a x : α} : x ∈ s.insert a ↔ x = a ∨ x ∈ s := by
  refine (mem_place_iff s.ascending).trans ⟨fun h => h.imp_right (·.1), fun h => ?_⟩
  rcases h with rfl | h
  · exact .inl rfl
  · by_cases hx : x = a
    · exact .inl hx
    · exact .inr ⟨h, hx⟩

omit [Std.TransOrd α] in
@[simp] theorem mem_erase {s : SortedSet α} {a x : α} : x ∈ s.erase a ↔ x ∈ s ∧ x ≠ a := by
  simp [erase]

@[simp] theorem mem_insertAll {s : SortedSet α} {l : List α} {x : α} :
    x ∈ s.insertAll l ↔ x ∈ s ∨ x ∈ l := by
  rw [insertAll]
  induction l generalizing s with
  | nil => simp
  | cons a l ih =>
    simp only [List.foldl_cons, ih, mem_insert, List.mem_cons]
    grind

@[simp] theorem mem_ofList {l : List α} {x : α} : x ∈ ofList l ↔ x ∈ l := by
  simp [ofList]

theorem ofList_toList (s : SortedSet α) : ofList s.toList = s := ext fun _ => mem_ofList

@[simp] theorem mem_union {s t : SortedSet α} {x : α} : x ∈ s.union t ↔ x ∈ s ∨ x ∈ t :=
  mem_insertAll

omit [Std.TransOrd α] [Std.LawfulEqOrd α] in
@[simp] theorem mem_inter [DecidableEq α] {s t : SortedSet α} {x : α} :
    x ∈ s.inter t ↔ x ∈ s ∧ x ∈ t := by
  simp [inter]

omit [Std.TransOrd α] [Std.LawfulEqOrd α] in
@[simp] theorem mem_diff [DecidableEq α] {s t : SortedSet α} {x : α} :
    x ∈ s.diff t ↔ x ∈ s ∧ x ∉ t := by
  simp [diff]

end SortedSet

end Filing
