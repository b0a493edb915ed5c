import Mathlib
import Filing.Proofs.Run

/-!
# Items that are inserted over others

Inserting an item drops the edges that the new value lists, and no others: the stored edges, the
index, the deferred edges and the other items stay as they are.  So an item that takes the place of
one with memberships inherits them in the index, while it lists none of them itself.

* `children_insertItem`, `parents_insertItem`: the other items keep their listings.
* `built_insertItem_iff`: in a cabinet that is built the new item is detached **exactly if the one
  that it replaces was**, and the cabinet passes the check exactly if that one listed no edge.
-/

namespace Filing.Cabinet

variable {c : Cabinet}

/-- The item is a member of nothing and has no members, whichever way one asks. -/
def Detached (c : Cabinet) (id : ItemId) : Prop :=
  c.parents id = [] ∧ c.children id = [] ∧
    ∀ other, c.isMember ⟨id, other⟩ = false ∧ c.isMember ⟨other, id⟩ = false

/-- The stored item with this identifier, if there is one, lists no edge. -/
def ListsNothing (c : Cabinet) (id : ItemId) : Prop :=
  ∀ i, c.item? id = some i → i.parentEdges = [] ∧ i.childEdges = []

section Listings

variable (c : Cabinet) (item : Item) {id : ItemId}

theorem item?_insertItem_self : (c.insertItem item).item? item.id = some item.detached := by
  rw [item?_insertItem, if_pos rfl]

theorem parents_insertItem (h : id ≠ item.id) : (c.insertItem item).parents id = c.parents id := by
  have he : (c.insertItem item).edge? = c.edge? := rfl
  rw [parents, parents, parentEdges, parentEdges, item?_insertItem, if_neg h, he]

theorem children_insertItem (h : id ≠ item.id) :
    (c.insertItem item).children id = c.children id := by
  have he : (c.insertItem item).edge? = c.edge? := rfl
  have hd : (c.insertItem item).deferred = c.deferred := rfl
  rw [children, children, childEdges, childEdges, item?_insertItem, if_neg h, he, hd]

theorem parents_insertItem_self : (c.insertItem item).parents item.id = [] := by
  rw [parents, parentEdges, item?_insertItem_self]
  rfl

end Listings

theorem Sound.detached_iff (h : c.Sound) {id : ItemId} :
    c.Detached id ↔ ∀ other, c.isMember ⟨id, other⟩ = false ∧ c.isMember ⟨other, id⟩ = false := by
  refine ⟨fun hd => hd.2.2, fun hm => ⟨?_, ?_, hm⟩⟩
  · apply List.eq_nil_iff_forall_not_mem.mpr
    intro p hp
    have := h.isMember_iff.mpr (h.mem_parents_iff.mp hp)
    rw [(hm p).1] at this
    cases this
  · apply List.eq_nil_iff_forall_not_mem.mpr
    intro x hx
    have := h.isMember_iff.mpr (h.mem_children_iff.mp hx)
    rw [(hm x).2] at this
    cases this

theorem Sound.verify_insertItem_iff (h : c.Sound) (item : Item) :
    (c.insertItem item).verify = .ok () ↔ c.ListsNothing item.id := by
  rw [verify_eq_ok_iff]
  constructor
  · rintro ⟨_, hc, _⟩ i hi
    refine ⟨List.eq_nil_iff_forall_not_mem.mpr fun e he => ?_,
      List.eq_nil_iff_forall_not_mem.mpr fun e he => ?_⟩
    · obtain ⟨edge, hs, hid⟩ := h.parent_stored hi he
      obtain ⟨j, hj, hm⟩ := hc.parent_listed (show (c.insertItem item).edge? e = _ from hs)
      rw [hid, item?_insertItem_self] at hj
      cases hj
      cases hm
    · obtain ⟨edge, hs, hid⟩ := h.child_stored hi he
      obtain ⟨j, hj, hm⟩ := hc.child_listed (show (c.insertItem item).edge? e = _ from hs)
      rw [hid, item?_insertItem_self] at hj
      cases hj
      exact hm.elim nofun (h.child_not_deferred hi he)
  · intro hn
    exact ⟨h.size_eq, h.toCoherent.insertItem hn, h.acyclic⟩

/-- **An item that replaces another has its memberships**, as far as the index and the deferred
edges tell. -/
theorem Sound.detached_insertItem_iff (h : c.Sound) (item : Item) :
    (c.insertItem item).Detached item.id ↔ c.Detached item.id := by
  rw [h.detached_iff]
  refine ⟨fun hd => hd.2.2, fun hm => ⟨parents_insertItem_self c item, ?_, hm⟩⟩
  apply List.eq_nil_iff_forall_not_mem.mpr
  intro x hx
  obtain ⟨edge, hedge, rfl⟩ := List.mem_map.mp hx
  obtain ⟨i, e, hi, he, hl⟩ := mem_childEdges_iff.mp hedge
  rw [item?_insertItem_self] at hi
  cases hi
  obtain ⟨_, hc⟩ := hl.resolve_left nofun
  have := h.isMember_iff.mpr ⟨e, edge, he, hc, rfl⟩
  rw [(hm edge.item).2] at this
  cases this

section Built

variable {settings : Settings} {epoch : Epoch} {n : Nat}

/-- **What an insertion leaves of the memberships.**  The check passes afterwards exactly if the
item that was replaced listed no edge; the new item is detached exactly if that one was, so that
both hold exactly if it was; and what is told of all other items, the edges and the index stay the
same in any case. -/
theorem built_insertItem_iff (h : Built settings epoch n c) (hn : n < 2 ^ 64 - 1) (item : Item) :
    ((c.insertItem item).verify = .ok () ↔ c.ListsNothing item.id) ∧
      ((c.insertItem item).Detached item.id ↔ c.Detached item.id) ∧
      ((c.insertItem item).verify = .ok () ∧ (c.insertItem item).Detached item.id ↔
        c.Detached item.id) ∧
      (c.insertItem item).item? item.id = some item.detached ∧
      (∀ key, (c.insertItem item).edgeBetween? key = c.edgeBetween? key ∧
        (c.insertItem item).isMember key = c.isMember key) ∧
      ∀ id, id ≠ item.id → (c.insertItem item).item? id = c.item? id ∧
        (c.insertItem item).parents id = c.parents id ∧
        (c.insertItem item).children id = c.children id := by
  have hs := h.sound hn
  have hnothing : c.Detached item.id → c.ListsNothing item.id := by
    rintro ⟨hp, hc, _⟩ i hi
    constructor
    · have hl := hs.toListed.length_parents hi
      rw [hp] at hl
      exact List.length_eq_zero_iff.mp hl.symm
    · apply List.eq_nil_iff_forall_not_mem.mpr
      intro e he
      obtain ⟨edge, hedge, hid⟩ := hs.child_stored hi he
      have hm : edge.item ∈ c.children item.id := hs.mem_children_iff.mpr ⟨e, edge, hedge, hid, rfl⟩
      rw [hc] at hm
      cases hm
  have hverify := hs.verify_insertItem_iff item
  have hdetached := hs.detached_insertItem_iff item
  refine ⟨hverify, hdetached, ?_, item?_insertItem_self c item, fun _ => ⟨rfl, rfl⟩, ?_⟩
  · exact ⟨fun hboth => hdetached.mp hboth.2,
      fun hd => ⟨hverify.mpr (hnothing hd), hdetached.mpr hd⟩⟩
  · intro id hid
    exact ⟨by rw [item?_insertItem, if_neg hid], parents_insertItem c item hid,
      children_insertItem c item hid⟩

/-- A document that is inserted over one that is in a folder: the folder still lists it, and it does
not know. -/
theorem not_verified_refiled :
    ((filed []).insertItem (.bare 2 .document [])).verify ≠ .ok () ∧
      ¬((filed []).insertItem (.bare 2 .document [])).Detached (.ofNat 2) ∧
      ((filed []).insertItem (.bare 2 .document [])).isMember ⟨.ofNat 2, .ofNat 1⟩ = true ∧
      ((filed []).insertItem (.bare 2 .document [])).children (.ofNat 1) = [.ofNat 2] ∧
      ((filed []).insertItem (.bare 2 .document [])).parents (.ofNat 2) = [] := by
  have hl : AllAllowed Operation.Fresh (Operation.filing []) (.empty .standard 0) :=
    ⟨rfl, rfl, trivial, trivial⟩
  obtain ⟨n, hn, hbuilt⟩ := built_afterAll hl
  have hn : n ≤ 3 := hn
  have h : Built .standard 0 n (filed []) := hbuilt
  obtain ⟨hverify, hdetached, _, _, hindex, hothers⟩ :=
    built_insertItem_iff h (by omega) (.bare 2 .document [])
  have hmember : (filed []).isMember ⟨.ofNat 2, .ofNat 1⟩ = true := by cbv
  have hlisted : ((filed []).item? (.ofNat 2)).map (·.parentEdges) = some [⟨1⟩] := by cbv
  refine ⟨fun hok => ?_, fun hd => ?_, ?_, ?_, parents_insertItem_self _ _⟩
  · obtain ⟨i, hi, he⟩ := Option.map_eq_some_iff.mp hlisted
    have hnothing := (hverify.mp hok i hi).1
    rw [he] at hnothing
    cases hnothing
  · have hnone := (hd.2.2 (.ofNat 1)).1
    rw [(hindex _).2, hmember] at hnone
    cases hnone
  · rw [(hindex _).2, hmember]
  · rw [(hothers (.ofNat 1) (by decide)).2.2]
    cbv

end Built

end Filing.Cabinet
