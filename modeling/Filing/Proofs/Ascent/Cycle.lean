import Filing.Ascent.Cycle
import Filing.Proofs.Ascent.Search

/-!
# The check for cycles before a new membership

An item *resolves* for a search if it is stored and every edge that it lists is stored as an edge of
this item and, unless the search stops there, leads to a stored container (`Resolves`).  From an
item that resolves the check climbs exactly where the edges lead, and from the new member to its
container as well (`ClimbsWith`, `arc_prospectiveAbove?_iff`); from any other item it cannot climb
at all (`above?_isSome_iff`).  So much holds in every cabinet, in order or not.

* `checkCycle_eq_acyclic_iff_resolves`: the verdict is `acyclic` exactly if **everything that is
  reached from the container resolves and lies on no cycle**.
* `of_checkCycle_eq_inconsistent`: the verdict is `inconsistent` only if something that is reached
  does not resolve, or lies on a cycle that the container is not on.

A relation without cycles that gets one more arc still has none exactly if the source of the arc
cannot be reached from its target (`acyclic_with_arc_iff`).  In a coherent cabinet every stored item
resolves, and a climb is a membership seen from below (`Coherent.resolves_iff`).  Hence **without
cycles so far, the verdict is `acyclic` exactly if the new membership closes none**
(`checkCycle_eq_acyclic_iff`), and nothing else goes wrong (`checkCycle_eq_wouldCycle`).
-/

namespace Filing

open Relation

namespace Graph

variable {α : Type} {r : α → α → Prop} {a b : α}

theorem transGen_with_arc {x y : α} (h : TransGen (fun x y => r x y ∨ x = a ∧ y = b) x y) :
    TransGen r x y ∨ ReflTransGen r x a ∧ ReflTransGen r b y := by
  induction h with
  | single h =>
    rcases h with h | ⟨rfl, rfl⟩
    · exact .inl (.single h)
    · exact .inr ⟨.refl, .refl⟩
  | tail _ h ih =>
    rcases h with h | ⟨rfl, rfl⟩
    · rcases ih with ih | ⟨hx, hb⟩
      · exact .inl (ih.tail h)
      · exact .inr ⟨hx, hb.tail h⟩
    · rcases ih with ih | ⟨hx, _⟩
      · exact .inr ⟨ih.to_reflTransGen, .refl⟩
      · exact .inr ⟨hx, .refl⟩

/-- **One more arc closes a cycle** exactly if its source lies ahead of its target. -/
theorem acyclic_with_arc_iff (hr : ∀ x, ¬TransGen r x x) :
    (∀ x, ¬TransGen (fun x y => r x y ∨ x = a ∧ y = b) x x) ↔ ¬ReflTransGen r b a := by
  constructor
  · intro h hba
    have hba' := ReflTransGen.mono (fun x y hxy => (.inl hxy : r x y ∨ x = a ∧ y = b)) b a hba
    exact h b (TransGen.tail' hba' (.inr ⟨rfl, rfl⟩))
  · intro hba x hx
    rcases transGen_with_arc hx with hx | ⟨hxa, hbx⟩
    · exact hr x hx
    · exact hba (hbx.trans hxa)

end Graph

theorem mapM_eq_some_tells {α β : Type} {f : α → Option β} {l : List α} {r : List β}
    (h : l.mapM f = some r) :
    (∀ a ∈ l, ∃ b, f a = some b) ∧ ∀ b, b ∈ r ↔ ∃ a ∈ l, f a = some b := by
  induction l generalizing r with
  | nil =>
    cases h
    simp
  | cons a l ih =>
    rw [List.mapM_cons] at h
    obtain ⟨b, hb, h⟩ := Option.bind_eq_some_iff.mp h
    obtain ⟨r', hr, h⟩ := Option.bind_eq_some_iff.mp h
    cases h
    obtain ⟨hall, hmem⟩ := ih hr
    refine ⟨List.forall_mem_cons.mpr ⟨⟨b, hb⟩, hall⟩, fun b' => ?_⟩
    simp only [List.mem_cons, hmem, exists_eq_or_imp, hb, Option.some.injEq, @eq_comm _ b]

theorem exists_mapM_eq_some {α β : Type} {f : α → Option β} {l : List α}
    (h : ∀ a ∈ l, ∃ b, f a = some b) : ∃ r, l.mapM f = some r := by
  induction l with
  | nil => exact ⟨[], rfl⟩
  | cons a l ih =>
    obtain ⟨⟨b, hb⟩, hl⟩ := List.forall_mem_cons.mp h
    obtain ⟨r, hr⟩ := ih hl
    exact ⟨b :: r, by rw [List.mapM_cons, hb, hr]; rfl⟩

namespace Cabinet

variable {c : Cabinet} {q : Quest} {parent child x y : ItemId}

/-- The item is stored, and every edge that it lists is stored as an edge of this item and is a
boundary or leads to a stored container. -/
def Resolves (c : Cabinet) (q : Quest) (id : ItemId) : Prop :=
  ∃ i, c.item? id = some i ∧ ∀ e ∈ i.parentEdges, ∃ edge, c.edge? e = some edge ∧
    edge.item = id ∧ (q.isBoundary edge = false → ∃ j, c.item? edge.container = some j)

/-- A climb along an edge that an item lists, or from the new member to its container. -/
def ClimbsWith (c : Cabinet) (parent child id up : ItemId) : Prop :=
  c.Climbs .everything id up ∨ id = child ∧ up = parent

/-! ## Climbing from one item -/

theorem climb?_eq_some_iff {id up : ItemId} {e : EdgeId} :
    c.climb? id e = some up ↔ ∃ edge, c.edge? e = some edge ∧ edge.item = id ∧
      edge.container = up ∧ ∃ j, c.item? up = some j := by
  have hstored : ∀ {id}, c.contains id = true ↔ ∃ j, c.item? id = some j :=
    SortedMap.contains_eq_true_iff
  rw [climb?]
  cases c.edge? e with
  | none => simp
  | some edge =>
    simp only [Option.bind_eq_bind, Option.bind_some, Option.ite_none_right_eq_some,
      Option.some.injEq, hstored]
    constructor
    · rintro ⟨⟨hid, hj⟩, rfl⟩
      exact ⟨edge, rfl, hid, rfl, hj⟩
    · rintro ⟨_, rfl, hid, rfl, hj⟩
      exact ⟨⟨hid, hj⟩, rfl⟩

theorem above?_isSome_iff : (∃ l, c.above? x = some l) ↔ c.Resolves .everything x := by
  constructor
  · rintro ⟨l, hl⟩
    obtain ⟨i, hi, hl⟩ := Option.bind_eq_some_iff.mp hl
    refine ⟨i, hi, fun e he => ?_⟩
    obtain ⟨p, hp⟩ := (mapM_eq_some_tells hl).1 e he
    obtain ⟨edge, hs, hid, rfl, hj⟩ := climb?_eq_some_iff.mp hp
    exact ⟨edge, hs, hid, fun _ => hj⟩
  · rintro ⟨i, hi, he⟩
    have hall : ∀ e ∈ i.parentEdges, ∃ p, c.climb? x e = some p := by
      intro e hm
      obtain ⟨edge, hs, hid, hj⟩ := he e hm
      exact ⟨edge.container, climb?_eq_some_iff.mpr ⟨edge, hs, hid, rfl, hj rfl⟩⟩
    obtain ⟨l, hl⟩ := exists_mapM_eq_some hall
    exact ⟨l, Option.bind_eq_some_iff.mpr ⟨i, hi, hl⟩⟩

theorem mem_above?_iff {l : List ItemId} (hl : c.above? x = some l) :
    y ∈ l ↔ c.Climbs .everything x y := by
  obtain ⟨i, hi, hl⟩ := Option.bind_eq_some_iff.mp hl
  simp only [(mapM_eq_some_tells hl).2, climb?_eq_some_iff]
  constructor
  · rintro ⟨e, he, edge, hs, hid, hup, hj⟩
    exact ⟨i, e, edge, hi, he, hs, hid, rfl, hup, hj⟩
  · rintro ⟨i', e, edge, hi', he, hs, hid, _, hup, hj⟩
    cases hi.symm.trans hi'
    exact ⟨e, he, edge, hs, hid, hup, hj⟩

theorem prospectiveAbove?_ne_none_iff :
    c.prospectiveAbove? parent child x ≠ none ↔ c.Resolves .everything x := by
  rw [← above?_isSome_iff, prospectiveAbove?, ne_eq, Option.map_eq_none_iff,
    ← ne_eq, Option.ne_none_iff_exists']

/-- **The check climbs from what resolves, along edges and from the new member.** -/
theorem arc_prospectiveAbove?_iff :
    Graph.Arc (c.prospectiveAbove? parent child) x y ↔
      c.Resolves .everything x ∧ c.ClimbsWith parent child x y := by
  have hmem : ∀ {l}, c.above? x = some l →
      (y ∈ (if x = child then l ++ [parent] else l) ↔ c.ClimbsWith parent child x y) := by
    intro l hl
    rw [ClimbsWith, ← mem_above?_iff hl]
    split
    · next hx => simp [hx]
    · next hx => simp [hx]
  rw [Graph.Arc, ← above?_isSome_iff]
  simp only [prospectiveAbove?, Option.map_eq_some_iff]
  constructor
  · rintro ⟨_, ⟨l, hl, rfl⟩, hm⟩
    exact ⟨⟨l, hl⟩, (hmem hl).mp hm⟩
  · rintro ⟨⟨l, hl⟩, hxy⟩
    exact ⟨_, ⟨l, hl, rfl⟩, (hmem hl).mpr hxy⟩

theorem prospective_met : ∀ x y, Graph.Arc (c.prospectiveAbove? parent child) x y →
    y = parent ∨ y ∈ c.items.keys.erase parent := by
  intro x y ha
  by_cases hy : y = parent
  · exact .inl hy
  · refine .inr ((List.mem_erase_of_ne hy).mpr (SortedMap.mem_keys_iff.mpr ?_))
    rcases (arc_prospectiveAbove?_iff.mp ha).2 with ⟨_, _, _, _, _, _, _, _, _, hj⟩ | ⟨_, rfl⟩
    · exact hj
    · exact absurd rfl hy

/-! ## The verdict -/

theorem resolves_of_grounded (hg : Graph.Grounded (c.prospectiveAbove? parent child) x) :
    c.Resolves .everything x :=
  prospectiveAbove?_ne_none_iff.mp (Option.ne_none_iff_exists'.mpr hg.known)

theorem grounded_climbsWith (hg : Graph.Grounded (c.prospectiveAbove? parent child) x)
    (hr : ReflTransGen (c.ClimbsWith parent child) x y) :
    Graph.Grounded (c.prospectiveAbove? parent child) y := by
  induction hr with
  | refl => exact hg
  | tail _ hstep ih =>
    exact ih.arc (arc_prospectiveAbove?_iff.mpr ⟨resolves_of_grounded ih, hstep⟩)

theorem not_loop_climbsWith (hg : Graph.Grounded (c.prospectiveAbove? parent child) x) :
    ¬TransGen (c.ClimbsWith parent child) x x := by
  intro hx
  refine hg.not_loop ?_
  -- everything on the way is grounded, so each climb is one of the check
  have hway : ∀ {z}, TransGen (c.ClimbsWith parent child) x z →
      TransGen (Graph.Arc (c.prospectiveAbove? parent child)) x z := by
    intro z hz
    induction hz with
    | single hstep =>
      exact .single (arc_prospectiveAbove?_iff.mpr ⟨resolves_of_grounded hg, hstep⟩)
    | tail hxy hstep ih =>
      have hy := grounded_climbsWith hg hxy.to_reflTransGen
      exact ih.tail (arc_prospectiveAbove?_iff.mpr ⟨resolves_of_grounded hy, hstep⟩)
  exact hway hx

theorem checkCycle_of_known {parent child : ItemId} {l : List ItemId} (hne : parent ≠ child)
    (hl : c.prospectiveAbove? parent child parent = some l) :
    c.checkCycle parent child =
      match Graph.depthFirst (c.prospectiveAbove? parent child) [(parent, l)]
        (c.items.keys.erase parent) with
      | .clear => .acyclic
      | .back id => if id = parent then .wouldCycle else .inconsistent
      | .blocked _ => .inconsistent := by
  rw [checkCycle, if_neg hne]
  cases hf : Graph.depthFirst (c.prospectiveAbove? parent child) [(parent, l)]
    (c.items.keys.erase parent) <;> simp only [hl, hf]

theorem checkCycle_of_unknown {parent child : ItemId} (hne : parent ≠ child)
    (hl : c.prospectiveAbove? parent child parent = none) :
    c.checkCycle parent child = .inconsistent := by
  rw [checkCycle, if_neg hne]
  simp only [hl]

/-- **The verdict is `acyclic`** exactly if everything that is reached from the container, along
edges and over the new membership, resolves and lies on no cycle. -/
theorem checkCycle_eq_acyclic_iff_resolves (hne : parent ≠ child) :
    c.checkCycle parent child = .acyclic ↔
      ∀ x, ReflTransGen (c.ClimbsWith parent child) parent x →
        c.Resolves .everything x ∧ ¬TransGen (c.ClimbsWith parent child) x x := by
  have hclimb : ∀ {x y}, Graph.Arc (c.prospectiveAbove? parent child) x y →
      c.ClimbsWith parent child x y := fun ha => (arc_prospectiveAbove?_iff.mp ha).2
  cases hl : c.prospectiveAbove? parent child parent with
  | none =>
    rw [checkCycle_of_unknown hne hl]
    refine ⟨nofun, fun h => ?_⟩
    exact absurd hl (prospectiveAbove?_ne_none_iff.mpr (h parent .refl).1)
  | some l =>
    have ht := Graph.depthFirst_tells hl prospective_met
    rw [checkCycle_of_known hne hl]
    generalize Graph.depthFirst (c.prospectiveAbove? parent child) [(parent, l)]
      (c.items.keys.erase parent) = finding at ht
    cases finding with
    | clear =>
      have hg := ht parent List.mem_cons_self
      refine ⟨fun _ x hx => ?_, fun _ => rfl⟩
      have hgx := grounded_climbsWith hg hx
      exact ⟨resolves_of_grounded hgx, not_loop_climbsWith hgx⟩
    | back t =>
      constructor
      · intro hv
        dsimp only at hv
        split at hv <;> cases hv
      · intro h
        exact absurd (TransGen.mono (fun _ _ => hclimb) t t ht.2)
          (h t (ReflTransGen.mono (fun _ _ => hclimb) parent t ht.1)).2
    | blocked t =>
      refine ⟨nofun, fun h => absurd ht.2 (prospectiveAbove?_ne_none_iff.mpr ?_)⟩
      exact (h t (ReflTransGen.mono (fun _ _ => hclimb) parent t ht.1)).1

/-- **Where the verdict is `inconsistent`**, something that is reached does not resolve, or lies on
a cycle that the container is not on. -/
theorem of_checkCycle_eq_inconsistent (hv : c.checkCycle parent child = .inconsistent) :
    ∃ x, ReflTransGen (c.ClimbsWith parent child) parent x ∧
      (¬c.Resolves .everything x ∨
        TransGen (fun x y => c.ClimbsWith parent child x y ∧ y ≠ parent) x x) := by
  have hclimb : ∀ {x y}, Graph.Arc (c.prospectiveAbove? parent child) x y →
      c.ClimbsWith parent child x y := fun ha => (arc_prospectiveAbove?_iff.mp ha).2
  have hne : parent ≠ child := by
    rintro rfl
    rw [checkCycle, if_pos rfl] at hv
    cases hv
  cases hl : c.prospectiveAbove? parent child parent with
  | none =>
    exact ⟨parent, .refl, .inl fun hr => absurd hl (prospectiveAbove?_ne_none_iff.mpr hr)⟩
  | some l =>
    have ht := Graph.depthFirst_tells hl prospective_met
    have hmet := fun t => Graph.depthFirst_back (t := t) hl c.items.keys_nodup.not_mem_erase
    rw [checkCycle_of_known hne hl] at hv
    generalize Graph.depthFirst (c.prospectiveAbove? parent child) [(parent, l)]
      (c.items.keys.erase parent) = finding at ht hmet hv
    cases finding with
    | clear => cases hv
    | back t =>
      refine ⟨t, ReflTransGen.mono (fun _ _ => hclimb) parent t ht.1, .inr ?_⟩
      rcases hmet t rfl with rfl | hloop
      -- met again, the container itself would make the verdict a new cycle
      · dsimp only at hv
        rw [if_pos rfl] at hv
        cases hv
      · exact TransGen.mono (fun _ _ => And.imp_left hclimb) t t hloop
    | blocked t =>
      exact ⟨t, ReflTransGen.mono (fun _ _ => hclimb) parent t ht.1,
        .inl fun hr => absurd ht.2 (prospectiveAbove?_ne_none_iff.mpr hr)⟩

/-! ## Coherent cabinets -/

namespace Coherent

theorem resolves_iff (h : c.Coherent) :
    c.Resolves q x ↔ ∃ i, c.item? x = some i := by
  refine ⟨fun ⟨i, hi, _⟩ => ⟨i, hi⟩, fun ⟨i, hi⟩ => ⟨i, hi, fun e he => ?_⟩⟩
  obtain ⟨edge, hs, hid⟩ := h.parent_stored hi he
  obtain ⟨j, hj, _⟩ := h.child_listed hs
  exact ⟨edge, hs, hid, fun _ => ⟨j, hj⟩⟩

theorem climbsWith_iff (h : c.Coherent) :
    c.ClimbsWith parent child x y ↔ c.Holds y x ∨ y = parent ∧ x = child := by
  rw [ClimbsWith, h.climbs_iff fun _ => rfl, and_comm]

theorem resolves_reached (h : c.Coherent) (hp : ∃ i, c.item? parent = some i)
    (hr : ReflTransGen (c.ClimbsWith parent child) parent x) : c.Resolves q x := by
  rw [h.resolves_iff]
  rcases ReflTransGen.cases_tail hr with rfl | ⟨y, _, hyx⟩
  · exact hp
  · rcases h.climbsWith_iff.mp hyx with hh | ⟨rfl, _⟩
    · exact h.container_stored hh
    · exact hp

end Coherent

/-- **The verdict is right**: a new membership of an item that is not above the container is safe,
and no other one is. -/
theorem checkCycle_eq_acyclic_iff (h : c.Coherent) (ha : c.Acyclic) {parent child : ItemId} :
    c.checkCycle parent child = .acyclic ↔
      (∃ i, c.item? parent = some i) ∧ ¬ReflTransGen c.Holds child parent := by
  by_cases hpc : parent = child
  · subst hpc
    rw [checkCycle, if_pos rfl]
    exact ⟨nofun, fun hn => absurd .refl hn.2⟩
  rw [checkCycle_eq_acyclic_iff_resolves hpc]
  constructor
  · intro hall
    obtain ⟨hp, hloop⟩ := hall parent .refl
    refine ⟨h.resolves_iff.mp hp, fun hcp => hloop ?_⟩
    -- a walk up to the child and over the new membership comes back to the container
    have hup : ReflTransGen (c.ClimbsWith parent child) parent child :=
      ReflTransGen.mono (fun _ _ hh => h.climbsWith_iff.mpr (.inl hh)) _ _
        (reflTransGen_swap.mpr hcp)
    exact TransGen.tail' hup (.inr ⟨rfl, rfl⟩)
  · rintro ⟨hp, hn⟩ x hx
    refine ⟨h.resolves_reached hp hx, fun hloop => ?_⟩
    refine (Graph.acyclic_with_arc_iff ha).mpr hn x (transGen_swap.mp ?_)
    exact TransGen.mono (fun _ _ => h.climbsWith_iff.mp) x x hloop

/-- **Nothing else goes wrong**: between stored items the verdict is a new cycle if the item is the
container or lies above it. -/
theorem checkCycle_eq_wouldCycle (h : c.Coherent) (ha : c.Acyclic) {parent child : ItemId}
    (hp : ∃ i, c.item? parent = some i) (hup : ReflTransGen c.Holds child parent) :
    c.checkCycle parent child = .wouldCycle := by
  cases hv : c.checkCycle parent child with
  | acyclic => exact absurd hup ((checkCycle_eq_acyclic_iff h ha).mp hv).2
  | wouldCycle => rfl
  | inconsistent =>
    exfalso
    obtain ⟨x, hx, hnot | hloop⟩ := of_checkCycle_eq_inconsistent hv
    · exact hnot (h.resolves_reached hp hx)
    · -- a cycle that the container is not on was there before
      refine ha x (transGen_swap.mp (TransGen.mono (fun x y hxy => ?_) x x hloop))
      exact (h.climbsWith_iff.mp hxy.1).resolve_right fun hnew => hxy.2 hnew.1

end Cabinet

end Filing
