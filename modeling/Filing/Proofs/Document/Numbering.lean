import Filing.Proofs.Document.Acceptance
import Filing.Proofs.Run

/-!
# Numbers of edges in an accepted document

A document tells the number of the next edge, and the check of what was read does not compare it
with the numbers in use.  If all of them are below it (`Numbered`), no addition ever takes a number
that is in use, as long as the numbers last (`Numbered.keepsNumbers`).

If not, an addition comes to a number in use as soon as the numbers between are spent.  They can be
spent, by adding an item to a container and removing it again: the edges are then what they were,
and the number of the next edge is one higher (`Vacant.spend`).  The addition that follows says that
it has made a new edge, and has put it in the place of another (`Vacant.not_allots`).

`numbered_of_accepted`: so the condition is **exact** wherever anything can be added at all.
-/

namespace Filing

open Cabinet Relation

namespace EdgeId

theorem toNat_inj {e e' : EdgeId} (h : e.toNat = e'.toNat) : e = e' := by
  cases e
  cases e'
  exact congrArg EdgeId.mk (UInt64.toNat_inj.mp h)

theorem toNat_iterate_next {e : EdgeId} {k : Nat} (h : e.toNat + k < 2 ^ 64) :
    (EdgeId.next^[k] e).toNat = e.toNat + k := by
  induction k with
  | zero => rfl
  | succ k ih =>
    rw [Function.iterate_succ_apply', toNat_next, ih (by omega)]
    · omega
    · rw [ih (by omega)]
      omega

end EdgeId

/-! ## What an addition does with the edges -/

namespace Cabinet

variable {c c' : Cabinet} {parent child : ItemId} {a : Addition}

/-- **Every addition that makes an edge takes a free number**, so that there is one edge more, and
the others are where they were. -/
def Allots (c : Cabinet) : Prop :=
  ∀ parent child a e c', (add parent child a).on c = (.ok (.added e), c') →
    c.edge? e = none ∧ c'.edges.size = c.edges.size + 1 ∧
      ∀ e' edge, c.edge? e' = some edge → c'.edge? e' = some edge

theorem retouched_of_added {e : EdgeId} (h : (add parent child a).on c = (.ok (.added e), c')) :
    e = c.nextEdge ∧ Retouched (c.withEdge ⟨child, parent⟩ a.acting a.defer a.now) c' := by
  cases hadd : c.checkAdd parent child a.policy with
  | error x =>
    rw [on_add_refused hadd] at h
    cases h
  | ok =>
    cases hi : c.index.find? ⟨child, parent⟩ with
    | some e' =>
      rw [on_add_present hadd hi] at h
      cases h
    | none =>
      rw [on_add_created hadd hi] at h
      have hr := retouched_settle a parent child c.nextEdge
        (c.withEdge ⟨child, parent⟩ a.acting a.defer a.now)
      rw [h] at hr
      exact ⟨Added.added.inj (settle_answer h), hr⟩

theorem allots_of_free (hn : c.edge? c.nextEdge = none) : c.Allots := by
  intro parent child a e c' h
  obtain ⟨rfl, hr⟩ := retouched_of_added h
  refine ⟨hn, ?_, fun e' edge he => ?_⟩
  · rw [hr.edges, edges_withEdge, SortedMap.size_insert _ hn]
  · rw [hr.edge?, edge?_withEdge, if_neg (ne_nextEdge hn he), he]

theorem on_add_null (hm : c.MembersStored) (hadd : c.checkAdd parent child a.policy = .ok ())
    (hi : c.index.find? ⟨child, parent⟩ = none) (hnull : a.propagation = .null) :
    ∃ c', (add parent child a).on c = (.ok (.added c.nextEdge), c') := by
  obtain ⟨_, ⟨i, j, hpi, _, hcj, _⟩, _⟩ := checkAdd_eq_ok_iff.mp hadd
  let linked := c.withEdge ⟨child, parent⟩ a.acting a.defer a.now
  have hstored : ∀ {id}, (∃ i, c.item? id = some i) → ∃ i, linked.item? id = some i := by
    rintro id ⟨k, hk⟩
    exact ⟨_, by rw [item?_withEdge, hk]; rfl⟩
  have hm' : linked.MembersStored := by
    intro e edge he
    rw [edge?_withEdge] at he
    split at he
    · cases he
      exact hstored ⟨j, hcj⟩
    · exact hstored (hm he)
  obtain ⟨k, hk⟩ := hstored ⟨i, hpi⟩
  have hconvert : ((convertKinds parent child).on linked).1 = .ok () := by
    rw [on_convertKinds, item_of_some hk]
    dsimp only
    split
    · apply convert_ok hm' _ _
      intro id hid
      rw [List.mem_singleton.mp hid]
      exact hstored ⟨j, hcj⟩
    · rfl
  rcases hc : (convertKinds parent child).on linked with ⟨_ | _, c'⟩
  · rw [hc] at hconvert
    cases hconvert
  · refine ⟨c', ?_⟩
    rw [on_add_created hadd hi, Addition.settle, hnull]
    exact Edit.on_bind_of_ok hc

end Cabinet

/-! ## Numbers below the next one -/

/-- Adding, removing, moving and destroying. -/
def Operation.Placing (_ : Cabinet) : Operation → Prop
  | .add .. | .remove .. | .move .. | .destroy _ => True
  | _ => False

theorem Operation.Placing.fresh {c : Cabinet} {op : Operation} (h : op.Placing c) :
    op.Fresh c := by
  cases op with
  | insert item => exact h.elim
  | _ => trivial

namespace Cabinet

variable {c₀ c c' : Cabinet} {parent child : ItemId} {n : Nat}

/-- **New edges stay apart from those that are there**, whatever is placed and as long as the
numbers last. -/
def KeepsNumbers (c₀ : Cabinet) : Prop :=
  ∀ {n c}, Reached Operation.Placing c₀ n c → c₀.nextEdge.toNat + n < 2 ^ 64 →
    c.Allots ∧ c.edges.size = c.index.size

/-- All numbers in use are below the next one. -/
def Numbered (c : Cabinet) : Prop :=
  ∀ {e edge}, c.edge? e = some edge → e.toNat < c.nextEdge.toNat

theorem Numbered.keepsNumbers (hn : c₀.Numbered) (h : c₀.Accepted) : c₀.KeepsNumbers := by
  intro n c hr hlast
  have ha : c₀.Accounted := ⟨h.toListed, hn, h.size_eq.symm⟩
  have hr := hr.mono fun _ _ hp => hp.fresh
  obtain ⟨ha, _⟩ := (hr.changes ha hlast).accounted ha hlast
  exact ⟨allots_of_free ha.nextEdge_free, ha.size_eq.symm⟩

/-! ## Spending numbers -/

/-- `child` can be added to `parent`, and that makes an edge. -/
structure Vacant (c : Cabinet) (parent child : ItemId) : Prop extends Coherent c where
  acyclic : c.Acyclic
  container : ∃ i, c.item? parent = some i ∧ i.isContainer = true
  item : ∃ i, c.item? child = some i
  new : c.index.find? ⟨child, parent⟩ = none
  not_above : ¬ReflTransGen c.Holds child parent

/-- An addition that any policy allows, and that moves no grants. -/
def plain : Addition := { Addition.bare .null with policy := .permissive }

theorem vacant_of_checkAdd (h : c.Accepted) {policy : AddPolicy}
    (hadd : c.checkAdd parent child policy = .ok ()) (hnew : c.isMember ⟨child, parent⟩ = false) :
    c.Vacant parent child := by
  obtain ⟨_, ⟨i, j, hi, hc, hj, _⟩, hv⟩ := checkAdd_eq_ok_iff.mp hadd
  exact
    { toCoherent := h.toCoherent
      acyclic := h.acyclic
      container := ⟨i, hi, hc⟩
      item := ⟨j, hj⟩
      new := SortedMap.contains_eq_false_iff.mp hnew
      not_above := ((checkCycle_eq_acyclic_iff h.toCoherent h.acyclic).mp hv).2 }

namespace Vacant

theorem checkAdd (h : c.Vacant parent child) : c.checkAdd parent child .permissive = .ok () := by
  obtain ⟨i, hi, hc⟩ := h.container
  obtain ⟨j, hj⟩ := h.item
  refine checkAdd_eq_ok_iff.mpr ⟨?_, ⟨i, j, hi, hc, hj, rfl⟩, ?_⟩
  · rintro rfl
    exact h.not_above .refl
  · exact (checkCycle_eq_acyclic_iff h.toCoherent h.acyclic).mpr ⟨⟨i, hi⟩, h.not_above⟩

/-- **An addition at a number in use is answered with a new edge**, although there is one edge
already under its number. -/
theorem not_allots (h : c.Vacant parent child) {edge : Edge} (he : c.edge? c.nextEdge = some edge) :
    ¬c.Allots := by
  intro hallots
  obtain ⟨c', hc'⟩ := on_add_null (a := plain) h.membersStored h.checkAdd h.new rfl
  rw [(hallots parent child plain _ c' hc').1] at he
  cases he

theorem of_edges (h : c.Vacant parent child) (hc : c'.Coherent)
    (hedge : ∀ e, c'.edge? e = c.edge? e) (hnew : c'.index.find? ⟨child, parent⟩ = none)
    (hitem : ∀ {id i}, c.item? id = some i →
      ∃ i', c'.item? id = some i' ∧ i'.isContainer = i.isContainer) : c'.Vacant parent child := by
  have hholds : c'.Holds = c.Holds := by
    funext p id
    simp only [Holds, hedge]
  obtain ⟨i, hi, hcont⟩ := h.container
  obtain ⟨j, hj⟩ := h.item
  obtain ⟨i', hi', hcont'⟩ := hitem hi
  obtain ⟨j', hj', _⟩ := hitem hj
  exact
    { toCoherent := hc
      acyclic := by
        rw [Acyclic, hholds]
        exact h.acyclic
      container := ⟨i', hi', hcont'.trans hcont⟩
      item := ⟨j', hj'⟩
      new := hnew
      not_above := hholds ▸ h.not_above }

/-- **A number is spent**: the item is added and removed, and only the number of the next edge
tells. -/
theorem spend (h : c.Vacant parent child) (hn : c.edge? c.nextEdge = none) :
    ∃ c₁ c₂, (Operation.add parent child plain).after c = c₁ ∧
      (Operation.remove parent child .null).after c₁ = c₂ ∧ c₂.nextEdge = c₁.nextEdge ∧
      c₂.nextEdge = c.nextEdge.next ∧ (∀ e, c₂.edge? e = c.edge? e) ∧ c₂.Vacant parent child := by
  obtain ⟨c₁, hadd⟩ := on_add_null (a := plain) h.membersStored h.checkAdd h.new rfl
  obtain ⟨_, hr⟩ := retouched_of_added hadd
  -- the new edge is on both sides, so it can be taken out
  have hcoh : c₁.Coherent := by
    obtain ⟨i, hi, _⟩ := h.container
    exact hr.coherent (h.toCoherent.withEdge _ _ _ hn h.item ⟨i, hi⟩)
  have hx : c₁.index.find? ⟨child, parent⟩ = some c.nextEdge := by
    rw [hr.index, find?_index_withEdge, if_pos rfl]
  have he : c₁.edge? c.nextEdge =
      some (.make c.nextEdge ⟨child, parent⟩ plain.acting plain.now) := by
    rw [hr.edge?, edge?_withEdge, if_pos rfl]
  obtain ⟨c₂, hc₂, hu⟩ := hcoh.exists_unlinked hx he rfl
  have hremove : (Operation.remove parent child .null).after c₁ = c₂ := by
    rw [Operation.after_remove, on_remove_of_some hc₂]
    rfl
  have hedge : ∀ e, c₂.edge? e = c.edge? e := by
    intro e
    rw [hu.edge?, hr.edge?, edge?_withEdge]
    split
    · next heq => rw [heq, hn]
    · rfl
  refine ⟨c₁, c₂, by rw [Operation.after_add, hadd], hremove, hu.nextEdge,
    hu.nextEdge.trans hr.nextEdge, hedge, h.of_edges (hu.coherent hcoh) hedge ?_ ?_⟩
  · rw [hu.find?_index, if_pos rfl]
  · intro id i hi
    obtain ⟨j, hj, ho⟩ := hr.item_after (by rw [item?_withEdge, hi]; rfl)
    have hcont := Item.isContainer_eq_of_outline ho
    exact ⟨_, hu.item_after hj, hcont⟩

/-- **Numbers can be spent until one in use comes up.** -/
theorem exhaust (k : Nat) (h : c.Vacant parent child) (hr : Reached Operation.Placing c₀ n c)
    {edge : Edge} (he : c.edge? (EdgeId.next^[k] c.nextEdge) = some edge) :
    ∃ m ≤ n + k, ∃ c', Reached Operation.Placing c₀ m c' ∧ ¬c'.Allots := by
  induction k generalizing n c with
  | zero => exact ⟨n, by omega, c, hr, h.not_allots he⟩
  | succ k ih =>
    cases hn : c.edge? c.nextEdge with
    | some edge' => exact ⟨n, by omega, c, hr, h.not_allots hn⟩
    | none =>
      obtain ⟨c₁, c₂, hadd, hremove, hsame, hnext, hedge, hv⟩ := h.spend hn
      have h₁ := hr.step (.add parent child plain) trivial
      rw [hadd] at h₁
      have h₂ := h₁.step (.remove parent child .null) trivial
      rw [hremove] at h₂
      have hnone : (Operation.remove parent child .null).links c₁ = 0 := by
        rw [Operation.links, hremove, if_pos hsame]
      have hone := (Operation.add parent child plain).links_le_one c
      obtain ⟨m, hm, hreach⟩ := ih hv h₂ (by rwa [hedge, hnext])
      exact ⟨m, by omega, hreach⟩

end Vacant

/-- **The condition is exact** where something can be added. -/
theorem Vacant.numbered (h : c₀.Vacant parent child) (hk : c₀.KeepsNumbers) : c₀.Numbered := by
  intro e edge he
  by_contra hlt
  have hlast : e.toNat < 2 ^ 64 := e.value.toNat_lt
  obtain ⟨k, hk'⟩ := Nat.exists_eq_add_of_le (Nat.le_of_not_lt hlt)
  have hiter : EdgeId.next^[k] c₀.nextEdge = e :=
    EdgeId.toNat_inj (by rw [EdgeId.toNat_iterate_next (by omega), hk'])
  obtain ⟨m, hm, c', hr, hno⟩ := h.exhaust k .start (hiter ▸ he)
  exact hno (hk hr (by omega)).1

/-! ## Accepted documents -/

/-- **When new edges stay apart from those of an accepted document.**  They do, in every run, if all
numbers in use are below the next one; and only then, if there is anything that can be added. -/
theorem accepted_keepsNumbers_iff {text : String} {settings : Settings} {epoch : Epoch}
    (hload : settings.verifyOnLoad = true) (h : ofDocument text settings epoch = .ok c) :
    (c.Numbered → c.KeepsNumbers) ∧
      ((∃ parent child policy, c.checkAdd parent child policy = .ok () ∧
        c.isMember ⟨child, parent⟩ = false) → c.KeepsNumbers → c.Numbered) := by
  have ha := accepted_of_ofDocument hload h
  refine ⟨fun hn => hn.keepsNumbers ha, ?_⟩
  rintro ⟨parent, child, policy, hadd, hnew⟩ hk
  exact (vacant_of_checkAdd ha hadd hnew).numbered hk

theorem not_keepsNumbers_drifted :
    ofDocument driftedText .standard 0 = .ok drifted ∧ ¬drifted.KeepsNumbers := by
  have hadd : drifted.checkAdd (.ofNat 1) (.ofNat 3) .standard = .ok () := by cbv
  have hnew : drifted.isMember ⟨.ofNat 3, .ofNat 1⟩ = false := by cbv
  have hused : drifted.edge? ⟨1⟩ = some (.make ⟨5⟩ ⟨.ofNat 2, .ofNat 1⟩ .anonymous .start) := by cbv
  refine ⟨ofDocument_driftedText, fun hk => ?_⟩
  have hn := (accepted_keepsNumbers_iff rfl ofDocument_driftedText).2
    ⟨_, _, _, hadd, hnew⟩ hk hused
  exact absurd hn (Nat.lt_irrefl 1)

end Cabinet

end Filing
