import Filing.Proofs.Cabinet.Coherence
import Filing.Proofs.Cabinet.Outline

/-!
# Sound cabinets

A coherent cabinet may still go wrong: an item or an edge may be stored under an identifier that it
does not bear, the index may name another edge, and a document may have members.  A cabinet without
any of this is *sound* (`Sound`).  The check of a cabinet does not see all of it, but the operations
keep it.

* `Coherent.mem_parents_iff`, `Coherent.mem_children_iff`: both listings of a membership tell what
  the stored edges tell.
* `Indexed.isMember_iff`: so does the index, if it is right.
* `Retouched.sound`: soundness is a matter of structure alone.
-/

namespace Filing.Cabinet

open Relation

variable {c c' : Cabinet}

/-! ## Listings -/

theorem mem_parentEdges_iff {id : ItemId} {edge : Edge} :
    edge ∈ c.parentEdges id ↔
      ∃ i e, c.item? id = some i ∧ e ∈ i.parentEdges ∧ c.edge? e = some edge := by
  unfold parentEdges
  cases hi : c.item? id with
  | none => simp
  | some i => simp [List.mem_filterMap]

theorem mem_childEdges_iff {id : ItemId} {edge : Edge} :
    edge ∈ c.childEdges id ↔
      ∃ i e, c.item? id = some i ∧ c.edge? e = some edge ∧
        (e ∈ i.childEdges ∨ e ∈ c.deferred ∧ edge.container = id) := by
  unfold childEdges
  cases hi : c.item? id with
  | none => simp
  | some i =>
    simp only [List.mem_append, List.mem_filter, List.mem_filterMap, decide_eq_true_eq,
      Option.some.injEq]
    constructor
    · rintro (⟨e, hm, he⟩ | ⟨⟨e, hm, he⟩, hc⟩)
      · exact ⟨i, e, rfl, he, .inl hm⟩
      · exact ⟨i, e, rfl, he, .inr ⟨hm, hc⟩⟩
    · rintro ⟨_, e, rfl, he, hm | ⟨hm, hc⟩⟩
      · exact .inl ⟨e, hm, he⟩
      · exact .inr ⟨⟨e, hm, he⟩, hc⟩

theorem childEdges_eq {id : ItemId} {i : Item} (hi : c.item? id = some i) :
    c.childEdges id = (i.childEdges ++ c.deferred.filter fun e =>
      (c.edge? e).any (·.container = id)).filterMap c.edge? := by
  rw [childEdges, hi, List.filterMap_append]
  refine congrArg (i.childEdges.filterMap c.edge? ++ ·) ?_
  induction c.deferred with
  | nil => rfl
  | cons e l ih =>
    cases he : c.edge? e with
    | none => simp [he, ih]
    | some edge => by_cases hc : edge.container = id <;> simp [he, hc, ih]

/-- Every member of a container is stored. -/
def MembersStored (c : Cabinet) : Prop :=
  ∀ {e edge}, c.edge? e = some edge → ∃ i, c.item? edge.item = some i

theorem MembersStored.of_mem_children (h : c.MembersStored) {p id : ItemId}
    (hm : id ∈ c.children p) : ∃ i, c.item? id = some i := by
  obtain ⟨edge, hedge, rfl⟩ := List.mem_map.mp hm
  obtain ⟨_, e, _, he, _⟩ := mem_childEdges_iff.mp hedge
  exact h he

namespace Coherent

theorem membersStored (h : c.Coherent) : c.MembersStored := by
  intro e edge he
  obtain ⟨i, hi, _⟩ := h.parent_listed he
  exact ⟨i, hi⟩

theorem mem_parents_iff (h : c.Coherent) {p id : ItemId} : p ∈ c.parents id ↔ c.Holds p id := by
  rw [parents, List.mem_map]
  constructor
  · rintro ⟨edge, hm, rfl⟩
    obtain ⟨i, e, hi, hm, he⟩ := mem_parentEdges_iff.mp hm
    obtain ⟨edge', he', hid⟩ := h.parent_stored hi hm
    rw [he] at he'
    cases he'
    exact ⟨e, edge, he, rfl, hid⟩
  · rintro ⟨e, edge, he, rfl, rfl⟩
    obtain ⟨i, hi, hm⟩ := h.parent_listed he
    exact ⟨edge, mem_parentEdges_iff.mpr ⟨i, e, hi, hm, he⟩, rfl⟩

theorem mem_childEdges_iff (h : c.Coherent) {id : ItemId} {edge : Edge} :
    edge ∈ c.childEdges id ↔ ∃ e, c.edge? e = some edge ∧ edge.container = id := by
  rw [Cabinet.mem_childEdges_iff]
  constructor
  · rintro ⟨i, e, hi, he, hm | ⟨_, hc⟩⟩
    · obtain ⟨edge', he', hc⟩ := h.child_stored hi hm
      rw [he] at he'
      cases he'
      exact ⟨e, he, hc⟩
    · exact ⟨e, he, hc⟩
  · rintro ⟨e, he, rfl⟩
    obtain ⟨i, hi, hm⟩ := h.child_listed he
    exact ⟨i, e, hi, he, hm.imp_right (⟨·, rfl⟩)⟩

theorem mem_children_iff (h : c.Coherent) {p id : ItemId} : id ∈ c.children p ↔ c.Holds p id := by
  rw [children, List.mem_map]
  constructor
  · rintro ⟨edge, hm, rfl⟩
    obtain ⟨e, he, hc⟩ := h.mem_childEdges_iff.mp hm
    exact ⟨e, edge, he, hc, rfl⟩
  · rintro ⟨e, edge, he, hc, rfl⟩
    exact ⟨edge, h.mem_childEdges_iff.mpr ⟨e, he, hc⟩, rfl⟩

theorem item_stored (h : c.Coherent) {p id : ItemId} (hh : c.Holds p id) :
    ∃ i, c.item? id = some i := by
  obtain ⟨e, edge, he, rfl, rfl⟩ := hh
  obtain ⟨i, hi, _⟩ := h.parent_listed he
  exact ⟨i, hi⟩

theorem container_stored (h : c.Coherent) {p id : ItemId} (hh : c.Holds p id) :
    ∃ i, c.item? p = some i := by
  obtain ⟨e, edge, he, rfl, rfl⟩ := hh
  obtain ⟨i, hi, _⟩ := h.child_listed he
  exact ⟨i, hi⟩

/-- **An edge is listed once on either side.** -/
theorem count_eq_one (h : c.Coherent) {e : EdgeId} {edge : Edge} (he : c.edge? e = some edge) :
    (∃ i, c.item? edge.item = some i ∧ i.parentEdges.count e = 1) ∧
      ∃ i, c.item? edge.container = some i ∧ i.childEdges.count e + c.deferred.count e = 1 := by
  obtain ⟨i, hi, hm⟩ := h.parent_listed he
  obtain ⟨i', hi', hm'⟩ := h.child_listed he
  refine ⟨⟨i, hi, List.count_eq_one_of_mem (h.parent_nodup hi) hm⟩, i', hi', ?_⟩
  rcases hm' with hm' | hm'
  · rw [List.count_eq_one_of_mem (h.child_nodup hi') hm',
      List.count_eq_zero.mpr (h.child_not_deferred hi' hm')]
  · have hn : e ∉ i'.childEdges := fun hc => h.child_not_deferred hi' hc hm'
    rw [List.count_eq_one_of_mem h.deferred_nodup hm', List.count_eq_zero.mpr hn]

end Coherent

/-! ## The index -/

/-- Every edge bears the number under which it is stored, and the index leads from the ends of an
edge to it, and nowhere else. -/
structure Indexed (c : Cabinet) : Prop where
  edge_id : ∀ {e edge}, c.edge? e = some edge → edge.id = e
  index_iff : ∀ {key e}, c.index.find? key = some e ↔ ∃ edge, c.edge? e = some edge ∧ edge.key = key

namespace Indexed

theorem isMember_iff (h : c.Indexed) {p id : ItemId} :
    c.isMember ⟨id, p⟩ = true ↔ c.Holds p id := by
  rw [isMember, SortedMap.contains_eq_true_iff]
  constructor
  · rintro ⟨e, he⟩
    obtain ⟨edge, hs, hk⟩ := h.index_iff.mp he
    cases hk
    exact ⟨e, edge, hs, rfl, rfl⟩
  · rintro ⟨e, edge, he, rfl, rfl⟩
    exact ⟨e, h.index_iff.mpr ⟨edge, he, rfl⟩⟩

theorem find?_eq_none_iff (h : c.Indexed) {p id : ItemId} :
    c.index.find? ⟨id, p⟩ = none ↔ ¬c.Holds p id := by
  rw [← h.isMember_iff, isMember, Bool.not_eq_true, SortedMap.contains_eq_false_iff]

theorem eq_of_key_eq (h : c.Indexed) {e e' : EdgeId} {edge edge' : Edge}
    (he : c.edge? e = some edge) (he' : c.edge? e' = some edge') (hk : edge.key = edge'.key) :
    e = e' := by
  have h₁ := h.index_iff.mpr ⟨edge, he, hk⟩
  have h₂ := h.index_iff.mpr ⟨edge', he', rfl⟩
  rw [h₁] at h₂
  exact Option.some.inj h₂

theorem nodup_ends (h : c.Indexed) {l : List EdgeId} (hn : l.Nodup) {far : Edge → ItemId}
    (hl : ∀ e ∈ l, ∀ e' ∈ l, ∀ edge edge', c.edge? e = some edge → c.edge? e' = some edge' →
      far edge = far edge' → edge.key = edge'.key) : ((l.filterMap c.edge?).map far).Nodup := by
  refine List.pairwise_map.mpr (List.pairwise_filterMap.mpr (hn.imp_of_mem ?_))
  intro e e' hm hm' hne edge he edge' he' hfar
  exact hne (h.eq_of_key_eq he he' (hl e hm e' hm' edge edge' he he' hfar))

theorem nodup_keys (h : c.Indexed) : (c.edges.values.map (·.key)).Nodup :=
  SortedMap.nodup_map_values_iff.mpr h.eq_of_key_eq

theorem size_eq (h : c.Indexed) : c.index.size = c.edges.size := by
  have hp : c.index.keys.Perm (c.edges.values.map (·.key)) := by
    apply (List.perm_ext_iff_of_nodup c.index.keys_nodup h.nodup_keys).mpr
    intro key
    rw [SortedMap.mem_keys_iff, List.mem_map]
    constructor
    · rintro ⟨e, he⟩
      obtain ⟨edge, he, hk⟩ := h.index_iff.mp he
      exact ⟨edge, SortedMap.mem_values_iff.mpr ⟨e, he⟩, hk⟩
    · rintro ⟨edge, hm, rfl⟩
      obtain ⟨e, he⟩ := SortedMap.mem_values_iff.mp hm
      exact ⟨e, h.index_iff.mpr ⟨edge, he, rfl⟩⟩
  rw [← SortedMap.length_keys, hp.length_eq, List.length_map, SortedMap.values, List.length_map]
  rfl

end Indexed

/-! ## Soundness -/

/-- Lists, index and edges agree, everything bears its own name, only containers have members, and
no item lies above itself. -/
structure Sound (c : Cabinet) : Prop extends Coherent c, Indexed c where
  item_id : ∀ {id i}, c.item? id = some i → i.id = id
  container_isContainer : ∀ {e edge i}, c.edge? e = some edge → c.item? edge.container = some i →
    i.isContainer = true
  acyclic : c.Acyclic

namespace Sound

theorem verify (h : c.Sound) : c.verify = .ok () :=
  verify_eq_ok_iff.mpr ⟨h.size_eq, h.toCoherent, h.acyclic⟩

theorem parents_nodup (h : c.Sound) (id : ItemId) : (c.parents id).Nodup := by
  rw [parents, parentEdges]
  cases hi : c.item? id with
  | none => exact List.nodup_nil
  | some i =>
    apply h.nodup_ends (h.parent_nodup hi)
    intro e hm e' hm' edge edge' he he' hfar
    obtain ⟨_, hs, hid⟩ := h.parent_stored hi hm
    obtain ⟨_, hs', hid'⟩ := h.parent_stored hi hm'
    cases he.symm.trans hs
    cases he'.symm.trans hs'
    rw [Edge.key, Edge.key, hid, hid', hfar]

theorem children_nodup (h : c.Sound) (id : ItemId) : (c.children id).Nodup := by
  unfold children
  cases hi : c.item? id with
  | none =>
    rw [childEdges, hi]
    exact List.nodup_nil
  | some i =>
    have hmem : ∀ e ∈ i.childEdges ++ c.deferred.filter fun e =>
        (c.edge? e).any (·.container = id),
        ∃ edge, c.edge? e = some edge ∧ edge.container = id := by
      intro e hm
      rcases List.mem_append.mp hm with hm | hm
      · exact h.child_stored hi hm
      · have hany := (List.mem_filter.mp hm).2
        cases he : c.edge? e with
        | none => simp [he] at hany
        | some edge => exact ⟨edge, rfl, by simpa [he] using hany⟩
    rw [childEdges_eq hi]
    refine h.nodup_ends ?_ fun e hm e' hm' edge edge' he he' hfar => ?_
    · refine List.nodup_append.mpr ⟨h.child_nodup hi, h.deferred_nodup.filter _, ?_⟩
      rintro e hm _ hd rfl
      exact h.child_not_deferred hi hm (List.mem_filter.mp hd).1
    · obtain ⟨_, hs, hc⟩ := hmem e hm
      obtain ⟨_, hs', hc'⟩ := hmem e' hm'
      cases he.symm.trans hs
      cases he'.symm.trans hs'
      rw [Edge.key, Edge.key, hc, hc', hfar]

/-- **Both listings count a membership alike.** -/
theorem count_children (h : c.Sound) (p id : ItemId) :
    (c.children p).count id = (c.parents id).count p := by
  by_cases hh : c.Holds p id
  · rw [List.count_eq_one_of_mem (h.children_nodup p) (h.mem_children_iff.mpr hh),
      List.count_eq_one_of_mem (h.parents_nodup id) (h.mem_parents_iff.mpr hh)]
  · rw [List.count_eq_zero.mpr fun hm => hh (h.mem_children_iff.mp hm),
      List.count_eq_zero.mpr fun hm => hh (h.mem_parents_iff.mp hm)]

theorem isContainer (h : c.Sound) {p id : ItemId} {i : Item} (hh : c.Holds p id)
    (hi : c.item? p = some i) : i.isContainer = true := by
  obtain ⟨e, edge, he, rfl, rfl⟩ := hh
  exact h.container_isContainer he hi

end Sound

/-! ## Retouching -/

namespace Retouched

theorem holds_iff (h : Retouched c c') {p id : ItemId} : c'.Holds p id ↔ c.Holds p id := by
  simp only [Holds, h.edge?]

theorem membersStored (h : Retouched c c') (hm : c.MembersStored) : c'.MembersStored := by
  intro e edge he
  rw [h.edge?] at he
  obtain ⟨i, hi⟩ := hm he
  obtain ⟨j, hj, _⟩ := h.item_after hi
  exact ⟨j, hj⟩

theorem listed (h : Retouched c c') (hl : c.Listed) : c'.Listed where
  parent_stored {id i e} hi he := by
    obtain ⟨j, hj, ho⟩ := h.item_before hi
    rw [← Item.parentEdges_eq_of_outline ho] at he
    simpa only [h.edge?] using hl.parent_stored hj he
  parent_nodup {id i} hi := by
    obtain ⟨j, hj, ho⟩ := h.item_before hi
    exact Item.parentEdges_eq_of_outline ho ▸ hl.parent_nodup hj

theorem coherent (h : Retouched c c') (hc : c.Coherent) : c'.Coherent where
  toListed := h.listed hc.toListed
  child_stored {id i e} hi he := by
    obtain ⟨j, hj, ho⟩ := h.item_before hi
    rw [← Item.childEdges_eq_of_outline ho] at he
    simpa only [h.edge?] using hc.child_stored hj he
  child_nodup {id i} hi := by
    obtain ⟨j, hj, ho⟩ := h.item_before hi
    exact Item.childEdges_eq_of_outline ho ▸ hc.child_nodup hj
  deferred_stored {e} he := by
    rw [h.deferred] at he
    simpa only [h.edge?] using hc.deferred_stored he
  deferred_nodup := h.deferred ▸ hc.deferred_nodup
  child_not_deferred {id i e} hi he := by
    obtain ⟨j, hj, ho⟩ := h.item_before hi
    rw [← Item.childEdges_eq_of_outline ho] at he
    exact h.deferred ▸ hc.child_not_deferred hj he
  parent_listed {e edge} he := by
    rw [h.edge?] at he
    obtain ⟨i, hi, hm⟩ := hc.parent_listed he
    obtain ⟨j, hj, ho⟩ := h.item_after hi
    exact ⟨j, hj, Item.parentEdges_eq_of_outline ho ▸ hm⟩
  child_listed {e edge} he := by
    rw [h.edge?] at he
    obtain ⟨i, hi, hm⟩ := hc.child_listed he
    obtain ⟨j, hj, ho⟩ := h.item_after hi
    rw [h.deferred]
    exact ⟨j, hj, Item.childEdges_eq_of_outline ho ▸ hm⟩

theorem indexed (h : Retouched c c') (hx : c.Indexed) : c'.Indexed where
  edge_id he := hx.edge_id (h.edge? _ ▸ he)
  index_iff := by
    intro key e
    rw [h.index, h.edge?]
    exact hx.index_iff

/-- **Soundness is a matter of structure alone.** -/
theorem sound (h : Retouched c c') (hs : c.Sound) : c'.Sound where
  toCoherent := h.coherent hs.toCoherent
  toIndexed := h.indexed hs.toIndexed
  item_id {id i} hi := by
    obtain ⟨j, hj, ho⟩ := h.item_before hi
    rw [← Item.id_eq_of_outline ho]
    exact hs.item_id hj
  container_isContainer {e edge i} he hi := by
    rw [h.edge?] at he
    obtain ⟨j, hj, ho⟩ := h.item_before hi
    rw [← Item.isContainer_eq_of_outline ho]
    exact hs.container_isContainer he hj
  acyclic := by
    have : c'.Holds = c.Holds := by
      funext p id
      exact propext h.holds_iff
    rw [Acyclic, this]
    exact hs.acyclic

end Retouched

/-! ## The empty cabinet -/

theorem sound_empty (settings : Settings) (epoch : Epoch) : (empty settings epoch).Sound := by
  have hi : ∀ {id i}, (empty settings epoch).item? id ≠ some i := fun h =>
    Option.some_ne_none _ h.symm
  have he : ∀ {e edge}, (empty settings epoch).edge? e ≠ some edge := fun h =>
    Option.some_ne_none _ h.symm
  exact
    { parent_stored := fun h => absurd h hi
      parent_nodup := fun h => absurd h hi
      child_stored := fun h => absurd h hi
      child_nodup := fun h => absurd h hi
      deferred_stored := fun h => absurd h List.not_mem_nil
      deferred_nodup := List.nodup_nil
      child_not_deferred := fun h => absurd h hi
      parent_listed := fun h => absurd h he
      child_listed := fun h => absurd h he
      edge_id := fun h => absurd h he
      index_iff := ⟨fun h => absurd h.symm (Option.some_ne_none _), fun ⟨_, h, _⟩ => absurd h he⟩
      item_id := fun h => absurd h hi
      container_isContainer := fun h => absurd h he
      acyclic := fun id h => by
        obtain ⟨_, ⟨e, edge, hs, _⟩, _⟩ := TransGen.head'_iff.mp h
        exact he hs }

theorem not_holds_empty (settings : Settings) (epoch : Epoch) {p id : ItemId} :
    ¬(empty settings epoch).Holds p id := by
  rintro ⟨e, edge, he, _⟩
  exact absurd he.symm (Option.some_ne_none _)

end Filing.Cabinet
