import Filing.Graph.Pruning
import Mathlib.Data.Fintype.Card
import Mathlib.Data.Fintype.EquivFin
import Mathlib.Logic.Relation
import Mathlib.Order.WellFounded

/-!
# Graphs without cycles

`isAcyclic` drops arcs whose source is no target, as long as there are any.  It says yes exactly if
no walk comes back to its start (`isAcyclic_iff`), for two reasons: every arc of a cycle has a
source that is a target, so pruning keeps the cycles (`transGen_prune_self_iff`), and where nothing
can be dropped but something is left, a walk backwards never ends.  The second is `exists_minimal`:
finitely many nodes without a cycle have one among them that no other leads to.  It also gives
induction along the arcs (`induction_of_acyclic`).
-/

namespace Filing.Graph

open Relation

variable {α : Type}

/-- **Among finitely many nodes without a cycle there is a first one.** -/
theorem exists_minimal {r : α → α → Prop} (hr : ∀ x, ¬TransGen r x x) {l : List α} (hl : l ≠ []) :
    ∃ x ∈ l, ∀ y ∈ l, ¬r y x := by
  let before : { x // x ∈ l } → { x // x ∈ l } → Prop := fun a b => TransGen r a.1 b.1
  have : IsTrans _ before := ⟨fun _ _ _ h h' => TransGen.trans h h'⟩
  have : Std.Irrefl before := ⟨fun a => hr a.1⟩
  have : Finite { x // x ∈ l } := by
    classical
    exact Finite.of_fintype _
  obtain ⟨a, ha⟩ := List.exists_mem_of_ne_nil l hl
  obtain ⟨m, _, hm⟩ := (Finite.wellFounded_of_trans_of_irrefl before).has_min Set.univ
    ⟨⟨a, ha⟩, trivial⟩
  exact ⟨m.1, m.2, fun y hy hym => hm ⟨y, hy⟩ trivial (.single hym)⟩

/-- **Induction along the arcs** of a graph without cycles in which finitely many nodes have arcs.
-/
theorem induction_of_acyclic {r : α → α → Prop} (hr : ∀ x, ¬TransGen r x x) {l : List α}
    (hl : ∀ x y, r x y → x ∈ l) {P : α → Prop} (h : ∀ y, (∀ x, r x y → P x) → P y) (y : α) :
    P y := by
  classical
  by_contra hy
  have hne : (y :: l).filter (fun x => ¬P x) ≠ [] :=
    List.ne_nil_of_mem (List.mem_filter.mpr ⟨List.mem_cons_self, decide_eq_true hy⟩)
  obtain ⟨m, hm, hmin⟩ := exists_minimal hr hne
  -- of the nodes without the property a first one has it
  refine of_decide_eq_true (List.mem_filter.mp hm).2 (h m fun x hx => ?_)
  by_contra hPx
  have hxl : x ∈ y :: l := List.mem_cons_of_mem _ (hl x m hx)
  exact hmin x (List.mem_filter.mpr ⟨hxl, decide_eq_true hPx⟩) hx

variable [DecidableEq α]

theorem mem_prune {arcs : List (α × α)} {a : α × α} :
    a ∈ prune arcs ↔ a ∈ arcs ∧ ∃ x, (x, a.1) ∈ arcs := by
  rw [prune, List.mem_filter, List.any_eq_true]
  constructor
  · rintro ⟨ha, ⟨x, y⟩, hb, he⟩
    exact ⟨ha, x, of_decide_eq_true he ▸ hb⟩
  · rintro ⟨ha, x, hx⟩
    exact ⟨ha, (x, a.1), hx, by simp⟩

theorem transGen_prune {arcs : List (α × α)} {x y : α} (hx : ∃ w, (w, x) ∈ arcs)
    (h : TransGen (fun a b => (a, b) ∈ arcs) x y) :
    TransGen (fun a b => (a, b) ∈ prune arcs) x y := by
  induction h with
  | single ha => exact .single (mem_prune.mpr ⟨ha, hx⟩)
  | @tail b c hb hbc ih =>
    obtain ⟨w, _, hw⟩ := TransGen.tail'_iff.mp hb
    exact ih.tail (mem_prune.mpr ⟨hbc, w, hw⟩)

/-- **Pruning keeps the cycles.** -/
theorem transGen_prune_self_iff {arcs : List (α × α)} {x : α} :
    TransGen (fun a b => (a, b) ∈ prune arcs) x x ↔ TransGen (fun a b => (a, b) ∈ arcs) x x := by
  constructor
  · intro h
    exact TransGen.mono (fun a b hab => (mem_prune.mp hab).1) x x h
  · intro h
    obtain ⟨w, _, hw⟩ := TransGen.tail'_iff.mp h
    exact transGen_prune ⟨w, hw⟩ h

/-- **The test is right**: it says yes exactly if no walk comes back to its start. -/
theorem isAcyclic_iff (arcs : List (α × α)) :
    isAcyclic arcs = true ↔ ∀ x, ¬TransGen (fun a b => (a, b) ∈ arcs) x x := by
  induction arcs using isAcyclic.induct with
  | case1 arcs hlt ih =>
    rw [isAcyclic, if_pos hlt, ih]
    exact forall_congr' fun x => not_congr transGen_prune_self_iff
  | case2 arcs hlt =>
    rw [isAcyclic, if_neg hlt, List.isEmpty_iff]
    constructor
    · rintro rfl x h
      obtain ⟨y, hy, _⟩ := TransGen.head'_iff.mp h
      cases hy
    · intro h
      by_contra hne
      -- nothing was dropped, so every source is a target, yet there is a first source
      have hkeep : prune arcs = arcs :=
        List.filter_sublist.eq_of_length
          (Nat.le_antisymm (List.length_filter_le _ _) (not_lt.mp hlt))
      obtain ⟨x, hx, hmin⟩ := exists_minimal h (l := arcs.map (·.1)) (by simpa using hne)
      obtain ⟨⟨x', y⟩, ha, rfl⟩ := List.mem_map.mp hx
      rw [← hkeep] at ha
      obtain ⟨_, w, hw⟩ := mem_prune.mp ha
      exact hmin w (List.mem_map.mpr ⟨_, hw, rfl⟩) hw

end Filing.Graph
