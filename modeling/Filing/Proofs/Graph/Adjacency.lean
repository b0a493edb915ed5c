import Filing.Item.Id
import Filing.Proofs.Graph.DepthFirst
import Filing.Proofs.Sorted.Map

/-!
# Arcs that are kept under their nodes

An ascent keeps the arcs that it follows in one list, the latest first.  Arcs can as well be kept in
a map, each under the node that it leaves.  The search for a cycle cannot tell the difference.

* `targets_arcsOf`: the arcs of a map lead from a node to what the map keeps under it.
* `getD_find?_gathered`: a map that is filled arc by arc keeps the targets of a node in their order.
* `hasCycleFrom_congr`: the order of the arcs and repetitions among them make no difference.
* `hasCycleFrom_arcsOf`: **whatever a map keeps, the search finds a cycle exactly if one can be
  reached along its arcs**.
-/

namespace Filing.Graph

open Relation

section Arcs

variable {α : Type} [DecidableEq α]

theorem targets_cons (a : α × α) (arcs : List (α × α)) (x : α) :
    targets (a :: arcs) x = if a.1 = x then a.2 :: targets arcs x else targets arcs x := by
  by_cases h : a.1 = x <;> simp [targets, h]

theorem targets_append (arcs arcs' : List (α × α)) (x : α) :
    targets (arcs ++ arcs') x = targets arcs x ++ targets arcs' x := by
  rw [targets, List.filter_append, List.map_append]
  rfl

theorem targets_map_mk (k : α) (l : List α) (x : α) :
    targets (l.map (k, ·)) x = if k = x then l else [] := by
  induction l with
  | nil => simp [targets]
  | cons y l ih =>
    rw [List.map_cons, targets_cons, ih]
    by_cases h : k = x <;> simp [h]

/-- **Only which arcs there are matters to the search.** -/
theorem hasCycleFrom_congr {start : α} {arcs arcs' : List (α × α)}
    (h : ∀ x y, (x, y) ∈ arcs ↔ (x, y) ∈ arcs') :
    hasCycleFrom start arcs = hasCycleFrom start arcs' := by
  rw [Bool.eq_iff_iff, hasCycleFrom_iff, hasCycleFrom_iff]
  simp only [h]

end Arcs

section Map

variable {α : Type} [Ord α]

/-- The arcs that a map keeps, node by node. -/
def arcsOf (m : SortedMap α (List α)) : List (α × α) :=
  m.entries.flatMap fun e => e.2.map (e.1, ·)

variable [Std.TransOrd α] [Std.LawfulEqOrd α]

theorem mem_arcsOf {m : SortedMap α (List α)} {x y : α} :
    (x, y) ∈ arcsOf m ↔ Arc m.find? x y := by
  rw [arcsOf, List.mem_flatMap]
  constructor
  · rintro ⟨⟨k, l⟩, hm, hy⟩
    obtain ⟨y', hy', he⟩ := List.mem_map.mp hy
    cases he
    exact ⟨l, SortedMap.mem_entries_iff.mp hm, hy'⟩
  · rintro ⟨l, hl, hy⟩
    exact ⟨(x, l), SortedMap.mem_entries_iff.mpr hl, List.mem_map_of_mem hy⟩

/-- The map that is filled with the arcs of a list, the last of them first. -/
def gathered (arcs : List (α × α)) : SortedMap α (List α) :=
  arcs.foldr (fun a m => m.insert a.1 ((m.find? a.1).getD [] ++ [a.2])) .empty

theorem gathered_cons (a : α × α) (arcs : List (α × α)) :
    gathered (a :: arcs) =
      (gathered arcs).insert a.1 (((gathered arcs).find? a.1).getD [] ++ [a.2]) := rfl

variable [DecidableEq α]

/-- **The arcs of a map lead from a node to what is kept under it**, in the same order. -/
theorem targets_arcsOf (m : SortedMap α (List α)) (x : α) :
    targets (arcsOf m) x = (m.find? x).getD [] := by
  obtain ⟨entries, hasc⟩ := m
  show targets (entries.flatMap fun e => e.2.map (e.1, ·)) x = (SortedMap.lookup x entries).getD []
  induction entries with
  | nil => rfl
  | cons e entries ih =>
    have ih := ih hasc.of_cons
    rw [List.flatMap_cons, targets_append, targets_map_mk, SortedMap.lookup, ih]
    simp only [Std.compare_eq_iff_eq]
    by_cases hk : e.1 = x
    · -- no key is repeated, so the rest keeps nothing under `x`
      have hrest : SortedMap.lookup x entries = none := by
        refine Option.eq_none_iff_forall_ne_some.mpr fun l hl => ?_
        have hlt := List.rel_of_pairwise_cons hasc (SortedMap.lookup_mem hl)
        exact Sorted.not_lt_self _ (hk ▸ hlt)
      rw [if_pos hk, if_pos hk.symm, hrest, Option.getD_none, List.append_nil, Option.getD_some]
    · rw [if_neg hk, if_neg fun h => hk h.symm, List.nil_append]

/-- **A map that is filled arc by arc** keeps the targets of each node in the order in which they
came. -/
theorem getD_find?_gathered (arcs : List (α × α)) (x : α) :
    ((gathered arcs).find? x).getD [] = (targets arcs x).reverse := by
  induction arcs with
  | nil => rfl
  | cons a arcs ih =>
    rw [gathered_cons, SortedMap.find?_insert, targets_cons]
    by_cases hx : a.1 = x
    · subst hx
      rw [if_pos rfl, if_pos rfl, Option.getD_some, ih, List.reverse_cons]
    · rw [if_neg fun h => hx h.symm, if_neg hx, ih]

theorem arc_gathered {arcs : List (α × α)} {x y : α} :
    Arc (gathered arcs).find? x y ↔ (x, y) ∈ arcs := by
  rw [← mem_arcsOf, ← mem_targets, targets_arcsOf, getD_find?_gathered, List.mem_reverse,
    mem_targets]

end Map

/-- **A search along the arcs that a map keeps tells exactly whether a cycle of them can be
reached.**  The map may be any: a node may be missing or be kept under itself, and a list may repeat
its members.  The arcs with which the map was filled give the same verdict. -/
theorem hasCycleFrom_arcsOf (start : ItemId) (explored : SortedMap ItemId (List ItemId)) :
    (∀ x, targets (arcsOf explored) x = (explored.find? x).getD []) ∧
    (hasCycleFrom start (arcsOf explored) = true ↔
      ∃ x, ReflTransGen (Arc explored.find?) start x ∧ TransGen (Arc explored.find?) x x) ∧
    ∀ arcs, gathered arcs = explored →
      hasCycleFrom start arcs = hasCycleFrom start (arcsOf explored) := by
  refine ⟨targets_arcsOf explored, ?_, ?_⟩
  · have harc : (fun a b => (a, b) ∈ arcsOf explored) = Arc explored.find? := by
      funext a b
      exact propext mem_arcsOf
    rw [hasCycleFrom_iff, harc]
  · rintro arcs rfl
    exact hasCycleFrom_congr fun x y => by rw [mem_arcsOf, arc_gathered]

/-- Arcs with repetitions: a cycle of two nodes that `1` leads to, a node that leads to itself, and
arcs from `5` that come together again without a cycle. -/
def knotted : List (ItemId × ItemId) :=
  [(.ofNat 1, .ofNat 2), (.ofNat 1, .ofNat 2), (.ofNat 2, .ofNat 3), (.ofNat 3, .ofNat 2),
    (.ofNat 4, .ofNat 4), (.ofNat 5, .ofNat 6), (.ofNat 5, .ofNat 7), (.ofNat 5, .ofNat 6),
    (.ofNat 6, .ofNat 7)]

theorem hasCycleFrom_arcsOf_knotted :
    (gathered knotted).find? (.ofNat 5) = some [.ofNat 6, .ofNat 7, .ofNat 6] ∧
    (hasCycleFrom (.ofNat 1) (arcsOf (gathered knotted)) = true ∧
      ∃ x, ReflTransGen (Arc (gathered knotted).find?) (.ofNat 1) x ∧
        TransGen (Arc (gathered knotted).find?) x x) ∧
    hasCycleFrom (.ofNat 4) (arcsOf (gathered knotted)) = true ∧
    (hasCycleFrom (.ofNat 5) (arcsOf (gathered knotted)) = false ∧
      ¬∃ x, ReflTransGen (Arc (gathered knotted).find?) (.ofNat 5) x ∧
        TransGen (Arc (gathered knotted).find?) x x) := by
  obtain ⟨-, hone, -⟩ := hasCycleFrom_arcsOf (.ofNat 1) (gathered knotted)
  obtain ⟨-, hfour, -⟩ := hasCycleFrom_arcsOf (.ofNat 4) (gathered knotted)
  obtain ⟨-, hfive, hsame⟩ := hasCycleFrom_arcsOf (.ofNat 5) (gathered knotted)
  have hthere : Arc (gathered knotted).find? (.ofNat 2) (.ofNat 3) := arc_gathered.mpr (by decide)
  have hback : Arc (gathered knotted).find? (.ofNat 3) (.ofNat 2) := arc_gathered.mpr (by decide)
  have hto : ReflTransGen (Arc (gathered knotted).find?) (.ofNat 1) (.ofNat 2) :=
    .single (arc_gathered.mpr (by decide))
  have hloop : Arc (gathered knotted).find? (.ofNat 4) (.ofNat 4) := arc_gathered.mpr (by decide)
  have hclear : hasCycleFrom (.ofNat 5) (arcsOf (gathered knotted)) = false := by
    rw [← hsame knotted rfl]
    simp [hasCycleFrom, knotted, targets, depthFirst, ItemId.ofNat]
  have hcycle : ∃ x, ReflTransGen (Arc (gathered knotted).find?) (.ofNat 1) x ∧
      TransGen (Arc (gathered knotted).find?) x x := ⟨_, hto, .tail (.single hthere) hback⟩
  refine ⟨by decide +kernel, ⟨hone.mpr hcycle, hcycle⟩, hfour.mpr ⟨_, .refl, .single hloop⟩,
    hclear, fun h => ?_⟩
  rw [hfive.mpr h] at hclear
  cases hclear

end Filing.Graph
