import Filing.Proofs.Cabinet.Linking
import Filing.Proofs.Cabinet.Sound

/-!
# What the elementary changes keep

A cabinet changes in a few ways only: an edge is entered or taken out, deferred edges are listed, an
edge is marked, an item comes or goes.  Each keeps what `Listed`, `Coherent` and `Indexed` say,
under conditions that the operations check.  A new edge must have a number of its own: that it has
is left to the caller here.

The lists of an item get an edge at the end or lose one, each under a condition on the item; what
then is in them is said once (`mem_ite_append`, `mem_ite_erase`).
-/

namespace Filing.Cabinet

open Relation

variable {c c' : Cabinet}

section Lists

variable {α : Type} [DecidableEq α] {p : Prop} [Decidable p] {l : List α} {a b : α}

omit [DecidableEq α] in
theorem mem_ite_append : b ∈ (if p then l ++ [a] else l) ↔ b ∈ l ∨ p ∧ b = a := by
  by_cases hp : p <;> simp [hp]

omit [DecidableEq α] in
theorem nodup_ite_append (hl : l.Nodup) (ha : a ∉ l) : (if p then l ++ [a] else l).Nodup := by
  split
  · exact List.nodup_append_comm.mp (List.nodup_cons.mpr ⟨ha, hl⟩)
  · exact hl

theorem mem_ite_erase (hl : l.Nodup) : b ∈ (if p then l.erase a else l) ↔ b ∈ l ∧ (p → b ≠ a) := by
  by_cases hp : p
  · simp [hp, hl.mem_erase_iff, and_comm]
  · simp [hp]

theorem nodup_ite_erase (hl : l.Nodup) : (if p then l.erase a else l).Nodup := by
  split
  · exact hl.erase a
  · exact hl

end Lists

/-! ## A new edge -/

section WithEdge

variable {key : Membership} (owner : Principal) (defer : Bool) (now : Timestamp)

theorem ne_nextEdge (hn : c.edge? c.nextEdge = none) {e : EdgeId} {edge : Edge}
    (he : c.edge? e = some edge) : e ≠ c.nextEdge := by
  rintro rfl
  rw [hn] at he
  cases he

theorem Listed.withEdge (h : c.Listed) (hn : c.edge? c.nextEdge = none) :
    (c.withEdge key owner defer now).Listed := by
  constructor
  · intro id i e hi he
    rw [item?_withEdge] at hi
    obtain ⟨j, hj, rfl⟩ := Option.map_eq_some_iff.mp hi
    rw [edge?_withEdge]
    rcases mem_ite_append.mp he with he | ⟨hid, rfl⟩
    · obtain ⟨edge, he, hid⟩ := h.parent_stored hj he
      exact ⟨edge, by rw [if_neg (ne_nextEdge hn he), he], hid⟩
    · exact ⟨_, if_pos rfl, hid.symm⟩
  · intro id i hi
    rw [item?_withEdge] at hi
    obtain ⟨j, hj, rfl⟩ := Option.map_eq_some_iff.mp hi
    exact nodup_ite_append (h.parent_nodup hj) (h.not_mem_parentEdges hn hj)

theorem Coherent.withEdge (h : c.Coherent) (hn : c.edge? c.nextEdge = none)
    (hitem : ∃ i, c.item? key.item = some i) (hcont : ∃ i, c.item? key.container = some i) :
    (c.withEdge key owner defer now).Coherent := by
  refine
    { toListed := h.toListed.withEdge owner defer now hn
      child_stored := ?child_stored
      child_nodup := ?child_nodup
      deferred_stored := ?deferred_stored
      deferred_nodup := ?deferred_nodup
      child_not_deferred := ?child_not_deferred
      parent_listed := ?parent_listed
      child_listed := ?child_listed }
  case child_stored =>
    intro id i e hi he
    rw [item?_withEdge] at hi
    obtain ⟨j, hj, rfl⟩ := Option.map_eq_some_iff.mp hi
    rw [edge?_withEdge]
    rcases mem_ite_append.mp he with he | ⟨⟨hid, _⟩, rfl⟩
    · obtain ⟨edge, he, hid⟩ := h.child_stored hj he
      exact ⟨edge, by rw [if_neg (ne_nextEdge hn he), he], hid⟩
    · exact ⟨_, if_pos rfl, hid.symm⟩
  case child_nodup =>
    intro id i hi
    rw [item?_withEdge] at hi
    obtain ⟨j, hj, rfl⟩ := Option.map_eq_some_iff.mp hi
    exact nodup_ite_append (h.child_nodup hj) (h.not_mem_childEdges hn hj)
  case deferred_stored =>
    intro e he
    rw [deferred_withEdge] at he
    rw [edge?_withEdge]
    rcases mem_ite_append.mp he with he | ⟨_, rfl⟩
    · obtain ⟨edge, he⟩ := h.deferred_stored he
      exact ⟨edge, by rw [if_neg (ne_nextEdge hn he), he]⟩
    · exact ⟨_, if_pos rfl⟩
  case deferred_nodup =>
    rw [deferred_withEdge]
    exact nodup_ite_append h.deferred_nodup (h.not_mem_deferred hn)
  case child_not_deferred =>
    intro id i e hi he hd
    rw [item?_withEdge] at hi
    obtain ⟨j, hj, rfl⟩ := Option.map_eq_some_iff.mp hi
    rw [deferred_withEdge] at hd
    rcases mem_ite_append.mp he with he | ⟨⟨_, hf⟩, rfl⟩ <;>
      rcases mem_ite_append.mp hd with hd | ⟨ht, hd⟩
    · exact h.child_not_deferred hj he hd
    · exact h.not_mem_childEdges hn hj (hd ▸ he)
    · exact h.not_mem_deferred hn hd
    · rw [hf] at ht
      cases ht
  case parent_listed =>
    intro e edge he
    rw [edge?_withEdge] at he
    simp only [item?_withEdge, Option.map_eq_some_iff]
    split at he
    · next heq =>
      cases he
      obtain ⟨i, hi⟩ := hitem
      exact ⟨_, ⟨i, hi, rfl⟩, mem_ite_append.mpr (.inr ⟨rfl, heq⟩)⟩
    · obtain ⟨i, hi, hm⟩ := h.parent_listed he
      exact ⟨_, ⟨i, hi, rfl⟩, mem_ite_append.mpr (.inl hm)⟩
  case child_listed =>
    intro e edge he
    rw [edge?_withEdge] at he
    simp only [item?_withEdge, Option.map_eq_some_iff, deferred_withEdge]
    split at he
    · next heq =>
      cases he
      obtain ⟨i, hi⟩ := hcont
      refine ⟨_, ⟨i, hi, rfl⟩, ?_⟩
      cases hd : defer with
      | false => exact .inl (mem_ite_append.mpr (.inr ⟨⟨rfl, rfl⟩, heq⟩))
      | true => exact .inr (mem_ite_append.mpr (.inr ⟨rfl, heq⟩))
    · obtain ⟨i, hi, hm⟩ := h.child_listed he
      exact ⟨_, ⟨i, hi, rfl⟩, hm.imp (mem_ite_append.mpr <| .inl ·) (mem_ite_append.mpr <| .inl ·)⟩

theorem Indexed.withEdge (h : c.Indexed) (hn : c.edge? c.nextEdge = none)
    (hk : c.index.find? key = none) : (c.withEdge key owner defer now).Indexed := by
  constructor
  · intro e edge he
    rw [edge?_withEdge] at he
    split at he
    · next heq =>
      cases he
      exact heq.symm
    · exact h.edge_id he
  · intro key' e
    rw [find?_index_withEdge, edge?_withEdge]
    by_cases hkey : key' = key <;> by_cases he : e = c.nextEdge
    · subst hkey he
      rw [if_pos rfl, if_pos rfl]
      exact ⟨fun _ => ⟨_, rfl, rfl⟩, fun _ => rfl⟩
    · subst hkey
      rw [if_pos rfl, if_neg he, ← h.index_iff, hk]
      exact ⟨fun hs => absurd (Option.some.inj hs).symm he, nofun⟩
    · subst he
      rw [if_neg hkey, if_pos rfl, h.index_iff, hn]
      constructor
      · rintro ⟨_, ⟨⟩, _⟩
      · rintro ⟨_, ⟨⟩, rfl⟩
        exact absurd rfl hkey
    · rw [if_neg hkey, if_neg he]
      exact h.index_iff

theorem holds_withEdge (hn : c.edge? c.nextEdge = none) {p id : ItemId} :
    (c.withEdge key owner defer now).Holds p id ↔
      c.Holds p id ∨ p = key.container ∧ id = key.item := by
  constructor
  · rintro ⟨e, edge, he, rfl, rfl⟩
    rw [edge?_withEdge] at he
    split at he
    · cases he
      exact .inr ⟨rfl, rfl⟩
    · exact .inl ⟨e, edge, he, rfl, rfl⟩
  · rintro (⟨e, edge, he, rfl, rfl⟩ | ⟨rfl, rfl⟩)
    · exact ⟨e, edge, by rw [edge?_withEdge, if_neg (ne_nextEdge hn he), he], rfl, rfl⟩
    · exact ⟨c.nextEdge, _, by rw [edge?_withEdge, if_pos rfl], rfl, rfl⟩

end WithEdge

/-! ## An edge less -/

namespace Unlinked

variable {key : Membership} {e : EdgeId}

theorem edge_item (h : c.Unlinked key e c') (hl : c.Listed) :
    ∃ edge, c.edge? e = some edge ∧ edge.item = key.item := by
  obtain ⟨i, hi, hm⟩ := h.on_item
  exact hl.parent_stored hi hm

theorem edge?_of_ne (h : c.Unlinked key e c') {e' : EdgeId} {edge : Edge} (hne : e' ≠ e)
    (he : c.edge? e' = some edge) : c'.edge? e' = some edge := by
  rw [h.edge?, if_neg hne, he]

theorem edge?_before (h : c.Unlinked key e c') {e' : EdgeId} {edge : Edge}
    (he : c'.edge? e' = some edge) : e' ≠ e ∧ c.edge? e' = some edge := by
  rw [h.edge?] at he
  split at he
  · cases he
  · next hne => exact ⟨hne, he⟩

theorem item_before (h : c.Unlinked key e c') {id : ItemId} {i' : Item}
    (hi : c'.item? id = some i') : ∃ i, c.item? id = some i ∧ i' =
      { i with
        parentEdges := if id = key.item then i.parentEdges.erase e else i.parentEdges
        childEdges := if id = key.container then i.childEdges.erase e else i.childEdges } := by
  rw [h.item?] at hi
  obtain ⟨i, hc, rfl⟩ := Option.map_eq_some_iff.mp hi
  exact ⟨i, hc, rfl⟩

theorem item_after (h : c.Unlinked key e c') {id : ItemId} {i : Item} (hi : c.item? id = some i) :
    c'.item? id = some
      { i with
        parentEdges := if id = key.item then i.parentEdges.erase e else i.parentEdges
        childEdges := if id = key.container then i.childEdges.erase e else i.childEdges } := by
  rw [h.item?, hi]
  rfl

theorem listed (h : c.Unlinked key e c') (hl : c.Listed) : c'.Listed := by
  obtain ⟨edge, he, hitem⟩ := h.edge_item hl
  constructor
  · intro id i' e' hi' hm
    obtain ⟨i, hi, rfl⟩ := h.item_before hi'
    obtain ⟨hm, hne⟩ := (mem_ite_erase (hl.parent_nodup hi)).mp hm
    obtain ⟨edge', he', hid⟩ := hl.parent_stored hi hm
    refine ⟨edge', h.edge?_of_ne (fun heq => ?_) he', hid⟩
    -- only the item itself lists the edge that went
    subst heq
    rw [he] at he'
    cases he'
    exact hne (hid.symm.trans hitem) rfl
  · intro id i' hi'
    obtain ⟨i, hi, rfl⟩ := h.item_before hi'
    exact nodup_ite_erase (hl.parent_nodup hi)

/-- The edge that goes need not be one of the membership that was named: the index may lead to
another edge of the item, if that edge stands where it is looked for. -/
theorem coherent (h : c.Unlinked key e c') (hc : c.Coherent) : c'.Coherent := by
  have hdef : ∀ {e'}, e' ∈ c'.deferred ↔ e' ∈ c.deferred ∧ e' ≠ e := by
    intro e'
    rcases h.on_container with ⟨⟨i, hi, hm⟩, hd⟩ | ⟨_, _, hd⟩
    · rw [hd]
      exact ⟨fun hm' => ⟨hm', fun heq => hc.child_not_deferred hi hm (heq ▸ hm')⟩, (·.1)⟩
    · rw [hd, hc.deferred_nodup.mem_erase_iff, and_comm]
  refine
    { toListed := h.listed hc.toListed
      child_stored := ?child_stored
      child_nodup := ?child_nodup
      deferred_stored := ?deferred_stored
      deferred_nodup := ?deferred_nodup
      child_not_deferred := ?child_not_deferred
      parent_listed := ?parent_listed
      child_listed := ?child_listed }
  case child_stored =>
    intro id i' e' hi' hm
    obtain ⟨i, hi, rfl⟩ := h.item_before hi'
    obtain ⟨hmi, hne⟩ := (mem_ite_erase (hc.child_nodup hi)).mp hm
    obtain ⟨edge, he, hid⟩ := hc.child_stored hi hmi
    refine ⟨edge, h.edge?_of_ne (fun heq => ?_) he, hid⟩
    subst heq
    -- the edge that went was in the list of the container, or else among the deferred ones
    rcases h.on_container with ⟨⟨j, hj, hmj⟩, _⟩ | ⟨_, hd, _⟩
    · obtain ⟨edge', he', hcont⟩ := hc.child_stored hj hmj
      cases he.symm.trans he'
      exact hne (hid.symm.trans hcont) rfl
    · exact hc.child_not_deferred hi hmi hd
  case child_nodup =>
    intro id i' hi'
    obtain ⟨i, hi, rfl⟩ := h.item_before hi'
    exact nodup_ite_erase (hc.child_nodup hi)
  case deferred_stored =>
    intro e' hm
    obtain ⟨hm, hne⟩ := hdef.mp hm
    obtain ⟨edge, he⟩ := hc.deferred_stored hm
    exact ⟨edge, h.edge?_of_ne hne he⟩
  case deferred_nodup =>
    rcases h.on_container with ⟨_, hd⟩ | ⟨_, _, hd⟩
    · exact hd ▸ hc.deferred_nodup
    · exact hd ▸ hc.deferred_nodup.erase e
  case child_not_deferred =>
    intro id i' e' hi' hm hd
    obtain ⟨i, hi, rfl⟩ := h.item_before hi'
    exact hc.child_not_deferred hi ((mem_ite_erase (hc.child_nodup hi)).mp hm).1 (hdef.mp hd).1
  case parent_listed =>
    intro e' edge he'
    obtain ⟨hne, he⟩ := h.edge?_before he'
    obtain ⟨i, hi, hm⟩ := hc.parent_listed he
    exact ⟨_, h.item_after hi, (mem_ite_erase (hc.parent_nodup hi)).mpr ⟨hm, fun _ => hne⟩⟩
  case child_listed =>
    intro e' edge he'
    obtain ⟨hne, he⟩ := h.edge?_before he'
    obtain ⟨i, hi, hm⟩ := hc.child_listed he
    refine ⟨_, h.item_after hi, ?_⟩
    rcases hm with hm | hm
    · exact .inl ((mem_ite_erase (hc.child_nodup hi)).mpr ⟨hm, fun _ => hne⟩)
    · exact .inr (hdef.mpr ⟨hm, hne⟩)

theorem size_eq (h : c.Unlinked key e c') (hl : c.Listed) (hs : c.index.size = c.edges.size) :
    c'.index.size = c'.edges.size := by
  obtain ⟨edge, he, _⟩ := h.edge_item hl
  have h₁ := SortedMap.size_erase h.named
  have h₂ := SortedMap.size_erase (m := c.edges) he
  rw [h.index, h.edges]
  omega

theorem indexed (h : c.Unlinked key e c') (hx : c.Indexed) : c'.Indexed := by
  constructor
  · intro e' edge he'
    exact hx.edge_id (h.edge?_before he').2
  · intro key' e'
    rw [h.find?_index]
    split
    · next hk =>
      constructor
      · nofun
      · rintro ⟨edge, he, hkey⟩
        obtain ⟨hne, he⟩ := h.edge?_before he
        have := hx.index_iff.mpr ⟨edge, he, hkey.trans hk⟩
        rw [h.named] at this
        exact absurd (Option.some.inj this).symm hne
    · next hk =>
      rw [hx.index_iff]
      constructor
      · rintro ⟨edge, he, hkey⟩
        refine ⟨edge, h.edge?_of_ne (fun heq => hk ?_) he, hkey⟩
        subst heq
        obtain ⟨edge', he', hkey'⟩ := hx.index_iff.mp h.named
        rw [he] at he'
        cases he'
        exact hkey.symm.trans hkey'
      · rintro ⟨edge, he, hkey⟩
        exact ⟨edge, (h.edge?_before he).2, hkey⟩

theorem holds_before (h : c.Unlinked key e c') {p id : ItemId} (hh : c'.Holds p id) :
    c.Holds p id := by
  obtain ⟨e', edge, he, hp, hid⟩ := hh
  exact ⟨e', edge, (h.edge?_before he).2, hp, hid⟩

/-- **Only the membership that was named ends.** -/
theorem holds_iff (h : c.Unlinked key e c') (hx : c.Indexed) {p id : ItemId} :
    c'.Holds p id ↔ c.Holds p id ∧ ¬(p = key.container ∧ id = key.item) := by
  rw [← (h.indexed hx).isMember_iff, ← hx.isMember_iff, isMember, isMember,
    SortedMap.contains, SortedMap.contains, h.find?_index]
  have hkey : (⟨id, p⟩ : Membership) = key ↔ p = key.container ∧ id = key.item := by
    constructor
    · rintro rfl
      exact ⟨rfl, rfl⟩
    · rintro ⟨rfl, rfl⟩
      rfl
  by_cases hk : (⟨id, p⟩ : Membership) = key
  · rw [if_pos hk]
    simp [hkey.mp hk]
  · rw [if_neg hk, ← hkey]
    simp [hk]

end Unlinked

theorem Coherent.exists_unlinked (h : c.Coherent) {key : Membership} {e : EdgeId} {edge : Edge}
    (hx : c.index.find? key = some e) (he : c.edge? e = some edge) (hk : edge.key = key) :
    ∃ c', c.unlink? key = some c' ∧ c.Unlinked key e c' := by
  subst hk
  have hside : (∃ i, c.item? edge.container = some i ∧ e ∈ i.childEdges) ∨ e ∈ c.deferred := by
    obtain ⟨i, hi, hm⟩ := h.child_listed he
    exact hm.imp_left fun hm => ⟨i, hi, hm⟩
  obtain ⟨c', hc'⟩ := unlink?_isSome_iff.mpr ⟨e, hx, h.parent_listed he, hside⟩
  obtain ⟨e', hu⟩ := unlinked_of_unlink? hc'
  cases hx.symm.trans hu.named
  exact ⟨c', hc', hu⟩

/-! ## Marks -/

section Mark

variable (c) (e : EdgeId) (deleted : Bool) (now : Timestamp)

/-- The cabinet with the deletion mark of an edge set or removed. -/
def markEdge : Cabinet := { c with edges := c.edges.modify e fun edge => edge.mark deleted now }

theorem edge?_markEdge (e' : EdgeId) :
    (c.markEdge e deleted now).edge? e' =
      if e' = e then (c.edge? e').map fun edge => edge.mark deleted now else c.edge? e' :=
  SortedMap.find?_modify c.edges e e' _

variable {c e deleted now}

theorem edge_before_mark {e' : EdgeId} {edge' : Edge}
    (h : (c.markEdge e deleted now).edge? e' = some edge') :
    ∃ edge, c.edge? e' = some edge ∧ edge.key = edge'.key ∧ edge.id = edge'.id := by
  rw [edge?_markEdge] at h
  split at h
  · obtain ⟨edge, he, rfl⟩ := Option.map_eq_some_iff.mp h
    exact ⟨edge, he, rfl, rfl⟩
  · exact ⟨edge', h, rfl, rfl⟩

theorem edge_after_mark {e' : EdgeId} {edge : Edge} (h : c.edge? e' = some edge) :
    ∃ edge', (c.markEdge e deleted now).edge? e' = some edge' ∧ edge'.key = edge.key := by
  rw [edge?_markEdge, h]
  split
  · exact ⟨_, rfl, rfl⟩
  · exact ⟨_, rfl, rfl⟩

theorem holds_markEdge {p id : ItemId} : (c.markEdge e deleted now).Holds p id ↔ c.Holds p id := by
  constructor
  · rintro ⟨e', edge', h, rfl, rfl⟩
    obtain ⟨edge, he, hk, _⟩ := edge_before_mark h
    exact ⟨e', edge, he, congrArg Membership.container hk, congrArg Membership.item hk⟩
  · rintro ⟨e', edge, h, rfl, rfl⟩
    obtain ⟨edge', he, hk⟩ := edge_after_mark h
    exact ⟨e', edge', he, congrArg Membership.container hk, congrArg Membership.item hk⟩

theorem Listed.markEdge (h : c.Listed) : (c.markEdge e deleted now).Listed where
  parent_stored hi hm := by
    obtain ⟨edge, he, hid⟩ := h.parent_stored hi hm
    obtain ⟨edge', he', hk⟩ := edge_after_mark he
    exact ⟨edge', he', (congrArg Membership.item hk).trans hid⟩
  parent_nodup := h.parent_nodup

theorem Coherent.markEdge (h : c.Coherent) : (c.markEdge e deleted now).Coherent where
  toListed := h.toListed.markEdge
  child_stored hi hm := by
    obtain ⟨edge, he, hid⟩ := h.child_stored hi hm
    obtain ⟨edge', he', hk⟩ := edge_after_mark he
    exact ⟨edge', he', (congrArg Membership.container hk).trans hid⟩
  child_nodup := h.child_nodup
  deferred_stored hm := by
    obtain ⟨edge, he⟩ := h.deferred_stored hm
    obtain ⟨edge', he', _⟩ := edge_after_mark he
    exact ⟨edge', he'⟩
  deferred_nodup := h.deferred_nodup
  child_not_deferred := h.child_not_deferred
  parent_listed {e' edge'} he' := by
    obtain ⟨edge, he, hk, _⟩ := edge_before_mark he'
    have hitem : edge.item = edge'.item := congrArg Membership.item hk
    exact hitem ▸ h.parent_listed he
  child_listed {e' edge'} he' := by
    obtain ⟨edge, he, hk, _⟩ := edge_before_mark he'
    have hcont : edge.container = edge'.container := congrArg Membership.container hk
    exact hcont ▸ h.child_listed he

theorem Indexed.markEdge (h : c.Indexed) : (c.markEdge e deleted now).Indexed where
  edge_id he' := by
    obtain ⟨edge, he, _, hid⟩ := edge_before_mark he'
    rw [← hid]
    exact h.edge_id he
  index_iff := by
    intro key e'
    show c.index.find? key = some e' ↔ _
    refine h.index_iff.trans ⟨?_, ?_⟩
    · rintro ⟨edge, he, rfl⟩
      exact edge_after_mark he
    · rintro ⟨edge', he', rfl⟩
      obtain ⟨edge, he, hk, _⟩ := edge_before_mark he'
      exact ⟨edge, he, hk⟩

end Mark

theorem markDeletedIn_of_edge {key : Membership} {e : EdgeId} {edge : Edge} {i j : Item}
    (hi : c.item? key.item = some i) (hj : c.item? key.container = some j)
    (hx : c.index.find? key = some e) (he : c.edge? e = some edge) (deleted : Bool)
    (now : Timestamp) :
    c.markDeletedIn key deleted now = .ok (true, c.markEdge e deleted now) := by
  rw [markDeletedIn, item, hi, item, hj]
  simp only [bind, Except.bind, hx, he]
  rfl

theorem markDeletedIn_cases (c : Cabinet) (key : Membership) (deleted : Bool) (now : Timestamp) :
    (∃ x, c.markDeletedIn key deleted now = .error x) ∨
      c.markDeletedIn key deleted now = .ok (false, c) ∨
      ∃ e edge, c.index.find? key = some e ∧ c.edge? e = some edge ∧
        c.markDeletedIn key deleted now = .ok (true, c.markEdge e deleted now) := by
  unfold markDeletedIn
  cases c.item key.item with
  | error x => exact .inl ⟨x, rfl⟩
  | ok i =>
    cases c.item key.container with
    | error x => exact .inl ⟨x, rfl⟩
    | ok j =>
      simp only [bind, Except.bind]
      cases hi : c.index.find? key with
      | none => exact .inr (.inl rfl)
      | some e =>
        dsimp only
        cases he : c.edge? e with
        | none => exact .inl ⟨_, rfl⟩
        | some edge => exact .inr (.inr ⟨e, edge, rfl, he, rfl⟩)

/-! ## Deferred edges -/

section Flush

theorem item_before_flush {id : ItemId} {i' : Item} (h : c.flushDeferred.1.item? id = some i') :
    ∃ i, c.item? id = some i ∧ i' = { i with
      childEdges := i.childEdges ++ c.deferred.filter fun e =>
        (c.edge? e).any (·.container = id) } := by
  rw [item?_flushDeferred] at h
  obtain ⟨i, hi, rfl⟩ := Option.map_eq_some_iff.mp h
  exact ⟨i, hi, rfl⟩

theorem mem_deferred_of {id : ItemId} {e : EdgeId} :
    e ∈ (c.deferred.filter fun e => (c.edge? e).any (·.container = id)) ↔
      e ∈ c.deferred ∧ ∃ edge, c.edge? e = some edge ∧ edge.container = id := by
  rw [List.mem_filter]
  apply and_congr Iff.rfl
  cases c.edge? e <;> simp

theorem Listed.flushDeferred (h : c.Listed) : c.flushDeferred.1.Listed where
  parent_stored hi' hm := by
    obtain ⟨i, hi, rfl⟩ := item_before_flush hi'
    rw [edge?_flushDeferred]
    exact h.parent_stored hi hm
  parent_nodup hi' := by
    obtain ⟨i, hi, rfl⟩ := item_before_flush hi'
    exact h.parent_nodup (i := i) hi

theorem holds_flushDeferred {p id : ItemId} : c.flushDeferred.1.Holds p id ↔ c.Holds p id := by
  simp only [Holds, edge?_flushDeferred]

theorem Coherent.flushDeferred (h : c.Coherent) : c.flushDeferred.1.Coherent := by
  have hd : c.flushDeferred.1.deferred = [] := by rw [flushDeferred_eq]
  refine
    { toListed := h.toListed.flushDeferred
      child_stored := ?child_stored
      child_nodup := ?child_nodup
      deferred_stored := fun hm => absurd (hd ▸ hm) List.not_mem_nil
      deferred_nodup := hd ▸ List.nodup_nil
      child_not_deferred := fun _ _ hm => absurd (hd ▸ hm) List.not_mem_nil
      parent_listed := ?parent_listed
      child_listed := ?child_listed }
  case child_stored =>
    intro id i' e hi' hm
    obtain ⟨i, hi, rfl⟩ := item_before_flush hi'
    rw [edge?_flushDeferred]
    rcases List.mem_append.mp hm with hm | hm
    · exact h.child_stored hi hm
    · exact (mem_deferred_of.mp hm).2
  case child_nodup =>
    intro id i' hi'
    obtain ⟨i, hi, rfl⟩ := item_before_flush hi'
    refine List.nodup_append.mpr ⟨h.child_nodup hi, h.deferred_nodup.filter _, ?_⟩
    rintro e hm _ hm' rfl
    exact h.child_not_deferred hi hm (mem_deferred_of.mp hm').1
  case parent_listed =>
    intro e edge he
    rw [edge?_flushDeferred] at he
    obtain ⟨i, hi, hm⟩ := h.parent_listed he
    refine ⟨_, by rw [item?_flushDeferred, hi]; rfl, ?_⟩
    exact hm
  case child_listed =>
    intro e edge he
    rw [edge?_flushDeferred] at he
    obtain ⟨i, hi, hm⟩ := h.child_listed he
    refine ⟨_, by rw [item?_flushDeferred, hi]; rfl, .inl (List.mem_append.mpr ?_)⟩
    exact hm.imp_right fun hm => mem_deferred_of.mpr ⟨hm, edge, he, rfl⟩

theorem Indexed.flushDeferred (h : c.Indexed) : c.flushDeferred.1.Indexed where
  edge_id he := h.edge_id (edge?_flushDeferred c _ ▸ he)
  index_iff := by
    intro key e
    rw [edge?_flushDeferred, show c.flushDeferred.1.index = c.index by rw [flushDeferred_eq]]
    exact h.index_iff

end Flush

/-! ## Items that come and go -/

section Items

theorem item?_insertItem (item : Item) (id : ItemId) :
    (c.insertItem item).item? id = if id = item.id then some item.detached else c.item? id :=
  SortedMap.find?_insert c.items item.id id _

theorem Listed.insertItem (h : c.Listed) (item : Item) : (c.insertItem item).Listed := by
  constructor
  · intro id i e hi hm
    rw [item?_insertItem] at hi
    split at hi
    · cases hi
      cases hm
    · exact h.parent_stored hi hm
  · intro id i hi
    rw [item?_insertItem] at hi
    split at hi
    · cases hi
      exact List.nodup_nil
    · exact h.parent_nodup hi

theorem Coherent.insertItem (h : c.Coherent) {item : Item}
    (hn : ∀ i, c.item? item.id = some i → i.parentEdges = [] ∧ i.childEdges = []) :
    (c.insertItem item).Coherent := by
  have hold : ∀ {id i}, id ≠ item.id → c.item? id = some i →
      (c.insertItem item).item? id = some i := by
    intro id i hid hi
    rw [item?_insertItem, if_neg hid, hi]
  refine
    { toListed := h.toListed.insertItem item
      child_stored := ?child_stored
      child_nodup := ?child_nodup
      deferred_stored := h.deferred_stored
      deferred_nodup := h.deferred_nodup
      child_not_deferred := ?child_not_deferred
      parent_listed := fun {e edge} he => ?parent_listed
      child_listed := fun {e edge} he => ?child_listed }
  case child_stored =>
    intro id i e hi hm
    rw [item?_insertItem] at hi
    split at hi
    · cases hi
      cases hm
    · exact h.child_stored hi hm
  case child_nodup =>
    intro id i hi
    rw [item?_insertItem] at hi
    split at hi
    · cases hi
      exact List.nodup_nil
    · exact h.child_nodup hi
  case child_not_deferred =>
    intro id i e hi hm
    rw [item?_insertItem] at hi
    split at hi
    · cases hi
      cases hm
    · exact h.child_not_deferred hi hm
  case parent_listed =>
    obtain ⟨i, hi, hm⟩ := h.parent_listed he
    refine ⟨i, hold (fun heq => ?_) hi, hm⟩
    rw [(hn i (heq ▸ hi)).1] at hm
    cases hm
  case child_listed =>
    obtain ⟨i, hi, hm⟩ := h.child_listed he
    by_cases heq : edge.container = item.id
    · -- the edges of its members are deferred, if there are any
      refine ⟨item.detached, by rw [item?_insertItem, if_pos heq], .inr (hm.resolve_left ?_)⟩
      rw [(hn i (heq ▸ hi)).2]
      exact List.not_mem_nil
    · exact ⟨i, hold heq hi, hm⟩

/-- The cabinet without an item. -/
def eraseItem (c : Cabinet) (id : ItemId) : Cabinet := { c with items := c.items.erase id }.bump

theorem item?_eraseItem (c : Cabinet) (id j : ItemId) :
    (c.eraseItem id).item? j = if j = id then none else c.item? j :=
  SortedMap.find?_erase c.items id j

theorem item_before_erase {id j : ItemId} {i : Item} (h : (c.eraseItem id).item? j = some i) :
    c.item? j = some i := by
  rw [item?_eraseItem] at h
  split at h
  · cases h
  · exact h

theorem Listed.eraseItem (h : c.Listed) (id : ItemId) : (c.eraseItem id).Listed where
  parent_stored hi := h.parent_stored (item_before_erase hi)
  parent_nodup hi := h.parent_nodup (item_before_erase hi)

theorem Coherent.eraseItem (h : c.Coherent) {id : ItemId}
    (hid : ∀ e edge, c.edge? e = some edge → edge.item ≠ id ∧ edge.container ≠ id) :
    (c.eraseItem id).Coherent where
  toListed := h.toListed.eraseItem id
  child_stored hi := h.child_stored (item_before_erase hi)
  child_nodup hi := h.child_nodup (item_before_erase hi)
  deferred_stored := h.deferred_stored
  deferred_nodup := h.deferred_nodup
  child_not_deferred hi := h.child_not_deferred (item_before_erase hi)
  parent_listed he := by
    rw [item?_eraseItem, if_neg (hid _ _ he).1]
    exact h.parent_listed he
  child_listed he := by
    rw [item?_eraseItem, if_neg (hid _ _ he).2]
    exact h.child_listed he

end Items

end Filing.Cabinet
