import Filing.Sorted.Set
import Mathlib.Data.List.Dedup

/-!
# Sizes of sorted sets

No element of a sorted set is repeated, so its size counts its elements.

* `size_union`: a union adds as many elements as were missing.
* `size_diff`: a difference drops as many elements as both sets have.
-/

namespace Filing.SortedSet

variable {α : Type} [Ord α] [Std.TransOrd α]

theorem nodup_toList (s : SortedSet α) : s.toList.Nodup := by
  refine List.Pairwise.imp (fun {a b} hab he => ?_) s.ascending
  rw [he] at hab
  exact Sorted.not_lt_self _ hab

omit [Std.TransOrd α] in
theorem size_diff [DecidableEq α] (s t : SortedSet α) :
    (s.diff t).size + s.toList.countP (· ∈ t) = s.size := by
  have hsplit := List.length_eq_countP_add_countP (· ∈ t) (l := s.toList)
  rw [size, diff, filter, ← List.countP_eq_length_filter, size, hsplit, Nat.add_comm]
  simp

theorem size_union [DecidableEq α] [Std.LawfulEqOrd α] (s t : SortedSet α) :
    (s.union t).size = s.size + t.toList.countP (· ∉ s) := by
  have hperm : (s.union t).toList.Perm (s.toList ++ t.toList.filter (· ∉ s)) := by
    refine (List.perm_ext_iff_of_nodup (s.union t).nodup_toList ?_).mpr fun a => ?_
    · refine List.nodup_append.mpr ⟨s.nodup_toList, t.nodup_toList.filter _, ?_⟩
      rintro a ha _ hb rfl
      exact of_decide_eq_true (List.mem_filter.mp hb).2 ha
    · have hunion : a ∈ (s.union t).toList ↔ a ∈ s ∨ a ∈ t := mem_union
      have hs : a ∈ s.toList ↔ a ∈ s := Iff.rfl
      have ht : a ∈ t.toList ↔ a ∈ t := Iff.rfl
      rw [hunion, List.mem_append, List.mem_filter, hs, ht, decide_eq_true_eq]
      tauto
  rw [size, hperm.length_eq, List.length_append, List.countP_eq_length_filter, size]

end Filing.SortedSet
