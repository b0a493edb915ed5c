import Mathlib
import Filing.Proofs.Ascent.Cycle
import Filing.Proofs.Run

/-!
# A new membership where the stored graph is not in order

Nothing is assumed of the cabinet here.  What is climbed after a new edge was climbed before, or is
the new membership (`Climbs.of_withEdge`).

* `not_loop_of_checkCycle`: with the verdict `acyclic` **the new membership closes no cycle of
  climbs**.
* `checkCycle_tells`: what the verdict says of the cabinet, that the link can then be made, and
  which cycles there are not after it.
-/

namespace Filing

open Relation

namespace Cabinet

variable {c c' : Cabinet} {parent child x y : ItemId}

section Link

variable {owner : Principal} {defer : Bool} {now : Timestamp} {r : Linked}

theorem Climbs.of_withEdge
    (h : (c.withEdge ⟨child, parent⟩ owner defer now).Climbs .everything x y) :
    c.ClimbsWith parent child x y := by
  obtain ⟨i', e, edge, hi', hm, he, hid, hb, hup, j, hj⟩ := h
  rw [item?_withEdge] at hi' hj
  obtain ⟨i, hi, rfl⟩ := Option.map_eq_some_iff.mp hi'
  obtain ⟨j, hj, _⟩ := Option.map_eq_some_iff.mp hj
  rw [edge?_withEdge] at he
  dsimp only at hm
  split at he
  · cases he
    exact .inr ⟨hid.symm, hup.symm⟩
  · next hne =>
    refine .inl ⟨i, e, edge, hi, ?_, he, hid, hb, hup, j, hj⟩
    split at hm
    · exact (List.mem_append.mp hm).resolve_right fun h => hne (List.mem_singleton.mp h)
    · exact hm

theorem Holds.of_withEdge (h : (c.withEdge ⟨child, parent⟩ owner defer now).Holds y x) :
    c.Holds y x ∨ y = parent ∧ x = child := by
  obtain ⟨e, edge, he, hup, hid⟩ := h
  rw [edge?_withEdge] at he
  split at he
  · cases he
    exact .inr ⟨hup.symm, hid.symm⟩
  · exact .inl ⟨e, edge, he, hup, hid⟩

theorem link_cases {key : Membership} (h : c.link key owner defer now = .ok (r, c')) :
    c' = c ∨ c' = c.withEdge key owner defer now := by
  rw [link] at h
  split at h
  · cases h
    exact .inl rfl
  · split at h
    · cases h
    · split at h
      · cases h
      · cases h
        exact .inr rfl

theorem link_ok {key : Membership} (hi : ∃ i, c.item? key.item = some i)
    (hj : ∃ j, c.item? key.container = some j) :
    ∃ r c', c.link key owner defer now = .ok (r, c') := by
  rw [link]
  cases c.index.find? key with
  | some e => exact ⟨_, _, rfl⟩
  | none =>
    dsimp only
    rw [contains, contains, SortedMap.contains_eq_true_iff.mpr hi,
      SortedMap.contains_eq_true_iff.mpr hj]
    exact ⟨_, _, rfl⟩

/-- **After the verdict `acyclic` the new membership closes no cycle of climbs**, whatever is stored
elsewhere. -/
theorem not_loop_of_checkCycle (hne : parent ≠ child) (hv : c.checkCycle parent child = .acyclic)
    (ha : ∀ x, ¬TransGen (c.Climbs .everything) x x) (x : ItemId) :
    ¬TransGen (c.ClimbsWith parent child) x x := by
  intro hx
  rcases Graph.transGen_with_arc hx with hx | ⟨hchild, hparent⟩
  · exact ha x hx
  -- the cycle passes from the new member to the container and back up to the new member
  have hup : ReflTransGen (c.ClimbsWith parent child) parent child :=
    ReflTransGen.mono (fun _ _ => Or.inl) parent child (hparent.trans hchild)
  exact ((checkCycle_eq_acyclic_iff_resolves hne).mp hv parent .refl).2
    (TransGen.tail' hup (.inr ⟨rfl, rfl⟩))

/-- **The check for cycles is right in every cabinet**, in order or not.  Its verdict is `acyclic`
exactly if everything that is reached from the container resolves and lies on no cycle.  With this
verdict a stored item can be linked, and where there was no cycle of climbs there is none after it.
Neither is there one of stored memberships if each of them is climbed, as it is wherever every
stored edge is listed by its item and leads to a stored container. -/
theorem checkCycle_tells (c : Cabinet) {parent child : ItemId} (hne : parent ≠ child) :
    (c.checkCycle parent child = .acyclic ↔
      ∀ x, ReflTransGen (c.ClimbsWith parent child) parent x →
        c.Resolves .everything x ∧ ¬TransGen (c.ClimbsWith parent child) x x) ∧
    (c.checkCycle parent child = .acyclic → ∀ owner defer now,
      ((∃ i, c.item? child = some i) →
        ∃ r c', c.link ⟨child, parent⟩ owner defer now = .ok (r, c')) ∧
      ∀ r c', c.link ⟨child, parent⟩ owner defer now = .ok (r, c') →
        ((∀ x, ¬TransGen (c.Climbs .everything) x x) →
          ∀ x, ¬TransGen (c'.Climbs .everything) x x) ∧
        ((∀ p x, c.Holds p x → c.Climbs .everything x p) → c.Acyclic → c'.Acyclic)) := by
  have hiff := checkCycle_eq_acyclic_iff_resolves (c := c) hne
  refine ⟨hiff, fun hv owner defer now => ⟨fun hi => ?_, fun r c' h => ?_⟩⟩
  · obtain ⟨j, hj, _⟩ := (hiff.mp hv parent .refl).1
    exact link_ok hi ⟨j, hj⟩
  · rcases link_cases h with rfl | rfl
    · exact ⟨id, fun _ => id⟩
    refine ⟨fun ha x hx => ?_, fun hall ha x hx => ?_⟩
    · refine not_loop_of_checkCycle hne hv ha x ?_
      exact TransGen.mono (fun _ _ => Climbs.of_withEdge) x x hx
    · have hold : ∀ x, ¬TransGen (c.Climbs .everything) x x := fun x hx =>
        ha x (transGen_swap.mp (TransGen.mono (fun _ _ => Climbs.holds) x x hx))
      refine not_loop_of_checkCycle hne hv hold x (transGen_swap.mp ?_)
      exact TransGen.mono (fun p x hh => hh.of_withEdge.imp (hall p x) And.symm) x x hx

end Link

/-- Two folders, one in the other, and a third that lists an edge which is not stored. -/
def frayed : Cabinet :=
  { empty { Settings.standard with verifyOnLoad := false } 0 with
    items := .ofList
      [(.ofNat 1, { Item.bare 1 (.container .folder) [] with childEdges := [⟨1⟩] }),
        (.ofNat 2, { Item.bare 2 (.container .folder) [] with parentEdges := [⟨1⟩] }),
        (.ofNat 3, { Item.bare 3 (.container .folder) [] with parentEdges := [⟨7⟩] })]
    edges := .ofList [(⟨1⟩, .make ⟨1⟩ ⟨.ofNat 2, .ofNat 1⟩ .anonymous .start)]
    index := .ofList [(⟨.ofNat 2, .ofNat 1⟩, ⟨1⟩)]
    nextEdge := ⟨8⟩ }

theorem climbs_frayed (h : frayed.Climbs .everything x y) : x = .ofNat 2 ∧ y = .ofNat 1 := by
  obtain ⟨_, e, edge, _, _, he, rfl, _, rfl, _⟩ := h
  have hm := SortedMap.mem_of_find?_ofList he
  cases List.mem_singleton.mp hm
  exact ⟨rfl, rfl⟩

/-- The third folder may be put into the second, as the loose end is not above that one.  Nothing
may be put into the third folder, although it has no container. -/
theorem checkCycle_tells_frayed :
    (.ofNat 2 : ItemId) ≠ .ofNat 3 ∧
      (∃ r c', frayed.link ⟨.ofNat 3, .ofNat 2⟩ .anonymous false .start = .ok (r, c') ∧
        ∀ x, ¬TransGen (c'.Climbs .everything) x x) ∧
      (.ofNat 3 : ItemId) ≠ .ofNat 1 ∧ frayed.checkCycle (.ofNat 3) (.ofNat 1) ≠ .acyclic := by
  have hne : (.ofNat 2 : ItemId) ≠ .ofNat 3 := by decide
  have hne' : (.ofNat 3 : ItemId) ≠ .ofNat 1 := by decide
  have hv : frayed.checkCycle (.ofNat 2) (.ofNat 3) = .acyclic := by cbv
  have hstored : ∃ i, frayed.item? (.ofNat 3) = some i := ⟨_, by cbv⟩
  have hclimbs : ∀ x, ¬TransGen (frayed.Climbs .everything) x x := by
    intro x hx
    obtain ⟨_, hstep, _⟩ := TransGen.head'_iff.mp hx
    obtain ⟨_, _, hstep'⟩ := TransGen.tail'_iff.mp hx
    exact absurd ((climbs_frayed hstep).1.symm.trans (climbs_frayed hstep').2) (by decide)
  obtain ⟨hlink, hkept⟩ := (checkCycle_tells frayed hne).2 hv .anonymous false .start
  obtain ⟨r, c', h⟩ := hlink hstored
  refine ⟨hne, ⟨r, c', h, (hkept r c' h).1 hclimbs⟩, hne', fun hv' => ?_⟩
  obtain ⟨i, hi, he⟩ := ((checkCycle_tells frayed hne').1.mp hv' _ .refl).1
  have hlists : (frayed.item? (.ofNat 3)).map (·.parentEdges) = some [⟨7⟩] := by cbv
  rw [hi, Option.map_some, Option.some.injEq] at hlists
  obtain ⟨edge, hs, _⟩ := he ⟨7⟩ (hlists ▸ List.mem_cons_self)
  have hnone : frayed.edge? ⟨7⟩ = none := by cbv
  exact absurd (hs.symm.trans hnone) (Option.some_ne_none edge)

end Cabinet

end Filing
