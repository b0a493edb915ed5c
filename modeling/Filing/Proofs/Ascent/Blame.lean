import Filing.Proofs.Ascent.Answers

/-!
# What the check for cycles blames

The verdict on a new membership says who is at fault: the membership (`wouldCycle`) or what is
stored (`inconsistent`).  Nothing is assumed of the cabinet here.

* **What is stored is blamed rightly**: with the verdict `inconsistent` a cycle or an item that does
  not resolve can be reached from the container (`disorder_of_checkCycle`).
* **The membership is blamed wrongly where the container lies on a stored cycle**: the search comes
  back to the container over the new membership, or over stored edges alone
  (`loop_climbsWith_iff`), and cannot tell the two.  If nothing else is out of order above the
  container, then either of them has the membership blamed (`checkCycle_blames`).
-/

namespace Filing.Cabinet

open Relation

variable {c : Cabinet} {parent child x : ItemId}

/-! ## Walks over the new membership -/

/-- The new membership leads to the container only, so **what is reached from the container over it
is reached without it**. -/
theorem reached_of_climbsWith (h : ReflTransGen (c.ClimbsWith parent child) parent x) :
    ReflTransGen (c.Climbs .everything) parent x := by
  induction h with
  | refl => exact .refl
  | tail _ hstep ih =>
    rcases hstep with hup | ⟨_, rfl⟩
    · exact ih.tail hup
    · exact .refl

theorem loop_of_climbsWith
    (h : TransGen (fun x y => c.ClimbsWith parent child x y ∧ y ≠ parent) x x) :
    TransGen (fun x y => c.Climbs .everything x y ∧ y ≠ parent) x x :=
  TransGen.mono (fun _ _ hxy => ⟨hxy.1.resolve_right fun hnew => hxy.2 hnew.2, hxy.2⟩) x x h

/-- **The container is met again** over the new membership, or over stored edges alone. -/
theorem loop_climbsWith_iff : TransGen (c.ClimbsWith parent child) parent parent ↔
    ReflTransGen (c.Climbs .everything) parent child ∨
      TransGen (c.Climbs .everything) parent parent := by
  constructor
  · intro h
    exact (Graph.transGen_with_arc h).symm.imp_left And.left
  · have hold : ∀ x y, c.Climbs .everything x y → c.ClimbsWith parent child x y := fun _ _ => .inl
    rintro (hup | hloop)
    · exact TransGen.tail' (ReflTransGen.mono hold parent child hup) (.inr ⟨rfl, rfl⟩)
    · exact TransGen.mono hold parent parent hloop

/-! ## The verdict -/

/-- **Where the membership is blamed**, the item is the container or the container is met again. -/
theorem loop_of_checkCycle (hv : c.checkCycle parent child = .wouldCycle) :
    parent = child ∨ TransGen (c.ClimbsWith parent child) parent parent := by
  refine or_iff_not_imp_left.mpr fun hne => ?_
  cases hl : c.prospectiveAbove? parent child parent with
  | none =>
    rw [checkCycle_of_unknown hne hl] at hv
    cases hv
  | some l =>
    have ht := Graph.depthFirst_tells hl prospective_met
    rw [checkCycle_of_known hne hl] at hv
    generalize Graph.depthFirst (c.prospectiveAbove? parent child) [(parent, l)]
      (c.items.keys.erase parent) = finding at ht hv
    cases finding with
    | clear | blocked => cases hv
    | back t =>
      dsimp only at hv
      split at hv
      · next hback =>
        subst hback
        exact TransGen.mono (fun _ _ ha => (arc_prospectiveAbove?_iff.mp ha).2) t t ht.2
      · cases hv

/-- **Where what is stored is blamed**, it is not in order. -/
theorem disorder_of_checkCycle (hv : c.checkCycle parent child = .inconsistent) :
    c.Disorder .everything parent := by
  obtain ⟨x, hx, hnot | hloop⟩ := of_checkCycle_eq_inconsistent hv
  · exact ⟨x, reached_of_climbsWith hx, .inr hnot⟩
  · exact ⟨x, reached_of_climbsWith hx,
      .inl (TransGen.mono (fun _ _ => And.left) x x (loop_of_climbsWith hloop))⟩

/-- **Whom the verdict blames**, in every cabinet.  The new membership is blamed only if the item is
the container or is reached from it, or if the container lies on a stored cycle.  What is stored is
blamed only if the container is not stored, or a cycle or an item that does not resolve is reached
from it.  Where all that is reached resolves and every cycle passes through the container, a stored
cycle is blamed on the new membership, whatever the item is. -/
theorem checkCycle_blames (c : Cabinet) (parent child : ItemId) :
    (c.checkCycle parent child = .wouldCycle → parent = child ∨
      ReflTransGen (c.Climbs .everything) parent child ∨
      TransGen (c.Climbs .everything) parent parent) ∧
    (c.checkCycle parent child = .inconsistent →
      c.item? parent = none ∨ c.Disorder .everything parent) ∧
    ((∀ x, ReflTransGen (c.Climbs .everything) parent x → c.Resolves .everything x ∧
        ¬TransGen (fun x y => c.Climbs .everything x y ∧ y ≠ parent) x x) →
      (c.checkCycle parent child = .wouldCycle ↔ parent = child ∨
        ReflTransGen (c.Climbs .everything) parent child ∨
        TransGen (c.Climbs .everything) parent parent)) := by
  have hblamed : c.checkCycle parent child = .wouldCycle → _ := fun hv =>
    (loop_of_checkCycle hv).imp_right loop_climbsWith_iff.mp
  refine ⟨hblamed, fun hv => .inr (disorder_of_checkCycle hv), fun hall => ⟨hblamed, fun h => ?_⟩⟩
  by_cases hne : parent = child
  · exact if_pos hne
  have hloop := loop_climbsWith_iff.mpr (h.resolve_left hne)
  cases hv : c.checkCycle parent child with
  | wouldCycle => rfl
  | acyclic =>
    exact absurd hloop ((checkCycle_eq_acyclic_iff_resolves hne).mp hv parent .refl).2
  | inconsistent =>
    exfalso
    obtain ⟨x, hx, hnot | hmiss⟩ := of_checkCycle_eq_inconsistent hv
    · exact hnot (hall x (reached_of_climbsWith hx)).1
    · exact (hall x (reached_of_climbsWith hx)).2 (loop_of_climbsWith hmiss)

/-- Two folders in each other, a third apart, and a fourth in the first. -/
def ringed : Cabinet :=
  { empty { Settings.standard with verifyOnLoad := false } 0 with
    items := .ofList
      [(.ofNat 1, { Item.bare 1 (.container .folder) [] with
          parentEdges := [⟨1⟩], childEdges := [⟨2⟩, ⟨3⟩] }),
        (.ofNat 2, { Item.bare 2 (.container .folder) [] with
          parentEdges := [⟨2⟩], childEdges := [⟨1⟩] }),
        (.ofNat 3, Item.bare 3 (.container .folder) []),
        (.ofNat 4, { Item.bare 4 (.container .folder) [] with parentEdges := [⟨3⟩] })]
    edges := .ofList
      [(⟨1⟩, .make ⟨1⟩ ⟨.ofNat 1, .ofNat 2⟩ .anonymous .start),
        (⟨2⟩, .make ⟨2⟩ ⟨.ofNat 2, .ofNat 1⟩ .anonymous .start),
        (⟨3⟩, .make ⟨3⟩ ⟨.ofNat 4, .ofNat 1⟩ .anonymous .start)]
    index := .ofList
      [(⟨.ofNat 1, .ofNat 2⟩, ⟨1⟩), (⟨.ofNat 2, .ofNat 1⟩, ⟨2⟩), (⟨.ofNat 4, .ofNat 1⟩, ⟨3⟩)]
    nextEdge := ⟨4⟩ }

theorem climbs_ringed {y : ItemId} (h : ringed.Climbs .everything x y) :
    y = .ofNat 1 ∨ y = .ofNat 2 ∧ x = .ofNat 1 := by
  obtain ⟨_, e, edge, _, _, he, rfl, _, rfl, _⟩ := h
  have hm := SortedMap.mem_of_find?_ofList he
  simp only [List.mem_cons, List.not_mem_nil, or_false, Prod.mk.injEq] at hm
  rcases hm with ⟨_, rfl⟩ | ⟨_, rfl⟩ | ⟨_, rfl⟩
  · exact .inr ⟨rfl, rfl⟩
  · exact .inl rfl
  · exact .inl rfl

/-- The cycle of the first two folders is blamed on whatever is put into the first, on the third
folder as well, but not if the third folder is put into the fourth. -/
theorem checkCycle_blames_ringed :
    ((.ofNat 1 : ItemId) ≠ .ofNat 3 ∧
      ¬ReflTransGen (ringed.Climbs .everything) (.ofNat 1) (.ofNat 3) ∧
      TransGen (ringed.Climbs .everything) (.ofNat 1) (.ofNat 1)) ∧
    (∀ child, ringed.checkCycle (.ofNat 1) child = .wouldCycle) ∧
    ringed.checkCycle (.ofNat 4) (.ofNat 3) = .inconsistent ∧
      ringed.Disorder .everything (.ofNat 4) := by
  have hne : (.ofNat 1 : ItemId) ≠ .ofNat 3 := by decide
  have hapart : ¬ReflTransGen (ringed.Climbs .everything) (.ofNat 1) (.ofNat 3) := by
    intro h
    rcases ReflTransGen.cases_tail h with heq | ⟨_, _, hstep⟩
    · exact absurd heq (by decide)
    · rcases climbs_ringed hstep with heq | ⟨heq, _⟩ <;> exact absurd heq (by decide)
  have hblamed : ringed.checkCycle (.ofNat 1) (.ofNat 3) = .wouldCycle := by cbv
  have hloop : TransGen (ringed.Climbs .everything) (.ofNat 1) (.ofNat 1) :=
    (((checkCycle_blames ringed _ _).1 hblamed).resolve_left hne).resolve_left hapart
  have hmiss : ∀ x,
      ¬TransGen (fun x y => ringed.Climbs .everything x y ∧ y ≠ .ofNat 1) x x := by
    intro x hx
    obtain ⟨_, ⟨hstep, hy⟩, _⟩ := TransGen.head'_iff.mp hx
    obtain ⟨_, _, _, hx⟩ := TransGen.tail'_iff.mp hx
    exact hx ((climbs_ringed hstep).resolve_left hy).2
  have hresolves : ∀ x, ReflTransGen (ringed.Climbs .everything) (.ofNat 1) x →
      ringed.Resolves .everything x := by
    intro x hx
    rcases ReflTransGen.cases_tail hx with rfl | ⟨_, _, hstep⟩
    · exact above?_isSome_iff.mp ⟨[.ofNat 2], by cbv⟩
    · rcases climbs_ringed hstep with rfl | ⟨rfl, _⟩
      · exact above?_isSome_iff.mp ⟨[.ofNat 2], by cbv⟩
      · exact above?_isSome_iff.mp ⟨[.ofNat 1], by cbv⟩
  have hstored : (ringed.item? (.ofNat 4)).isSome = true := by cbv
  have hrest : ringed.checkCycle (.ofNat 4) (.ofNat 3) = .inconsistent := by cbv
  refine ⟨⟨hne, hapart, hloop⟩, fun child => ?_, hrest, ?_⟩
  · exact ((checkCycle_blames ringed _ child).2.2 fun x hx => ⟨hresolves x hx, hmiss x⟩).mpr
      (.inr (.inr hloop))
  · exact ((checkCycle_blames ringed _ _).2.1 hrest).resolve_left
      (Option.isSome_iff_ne_none.mp hstored)

end Filing.Cabinet
