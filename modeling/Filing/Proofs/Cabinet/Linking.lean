import Filing.Cabinet.Deletion
import Filing.Proofs.Cabinet.Outline
import Mathlib.Data.List.Basic

/-!
# What linking, unlinking and flushing do

One lemma for each of the three tells every look-up afterwards, so that none of them is unfolded
again.

* `item?_withEdge`, `edge?_withEdge`: a new edge is entered.
* `unlinked_of_unlink?`: a successful `unlink?` takes out the edge that the index names
  (`Unlinked`). It succeeds exactly if this edge is on both sides (`unlink?_isSome_iff`).
* `item?_flushDeferred`: every container gets the deferred edges of its members.
-/

namespace Filing.Cabinet

variable {c c' : Cabinet}

/-! ## A new edge -/

section WithEdge

variable (c : Cabinet) (key : Membership) (owner : Principal) (defer : Bool) (now : Timestamp)

theorem item?_withEdge (id : ItemId) :
    (c.withEdge key owner defer now).item? id = (c.item? id).map fun i =>
      { i with
        parentEdges := if id = key.item then i.parentEdges ++ [c.nextEdge] else i.parentEdges
        childEdges :=
          if id = key.container ∧ defer = false then i.childEdges ++ [c.nextEdge]
          else i.childEdges } := by
  have h : (c.withEdge key owner defer now).item? id =
      if defer then (c.modifyItem key.item fun i =>
        { i with parentEdges := i.parentEdges ++ [c.nextEdge] }).item? id
      else ((c.modifyItem key.item fun i =>
        { i with parentEdges := i.parentEdges ++ [c.nextEdge] }).modifyItem key.container fun i =>
          { i with childEdges := i.childEdges ++ [c.nextEdge] }).item? id := by
    cases defer <;> rfl
  rw [h]
  simp only [item?_modifyItem]
  cases c.item? id <;> cases defer <;> by_cases h₁ : id = key.item <;>
    by_cases h₂ : id = key.container <;> simp_all

theorem edge?_withEdge (e : EdgeId) :
    (c.withEdge key owner defer now).edge? e =
      if e = c.nextEdge then some (.make c.nextEdge key owner now) else c.edge? e :=
  SortedMap.find?_insert c.edges c.nextEdge e _

theorem find?_index_withEdge (key' : Membership) :
    (c.withEdge key owner defer now).index.find? key' =
      if key' = key then some c.nextEdge else c.index.find? key' :=
  SortedMap.find?_insert c.index key key' _

theorem deferred_withEdge :
    (c.withEdge key owner defer now).deferred =
      if defer then c.deferred ++ [c.nextEdge] else c.deferred := by
  cases defer <;> rfl

theorem settings_withEdge : (c.withEdge key owner defer now).settings = c.settings := by
  cases defer <;> rfl

theorem epoch_withEdge : (c.withEdge key owner defer now).epoch = c.epoch := by
  cases defer <;> rfl

theorem generation_withEdge :
    (c.withEdge key owner defer now).generation = c.generation + 1 := by
  cases defer <;> rfl

theorem edges_withEdge :
    (c.withEdge key owner defer now).edges =
      c.edges.insert c.nextEdge (.make c.nextEdge key owner now) := rfl

theorem index_withEdge :
    (c.withEdge key owner defer now).index = c.index.insert key c.nextEdge := rfl

end WithEdge

/-! ## An edge less -/

/-- The edge `e`, which the index names for `key`, was taken out. -/
structure Unlinked (c : Cabinet) (key : Membership) (e : EdgeId) (c' : Cabinet) : Prop where
  named : c.index.find? key = some e
  on_item : ∃ i, c.item? key.item = some i ∧ e ∈ i.parentEdges
  on_container :
    ((∃ i, c.item? key.container = some i ∧ e ∈ i.childEdges) ∧ c'.deferred = c.deferred) ∨
      ((∀ i, c.item? key.container = some i → e ∉ i.childEdges) ∧ e ∈ c.deferred ∧
        c'.deferred = c.deferred.erase e)
  item? : ∀ id, c'.item? id = (c.item? id).map fun i =>
    { i with
      parentEdges := if id = key.item then i.parentEdges.erase e else i.parentEdges
      childEdges := if id = key.container then i.childEdges.erase e else i.childEdges }
  edges : c'.edges = c.edges.erase e
  index : c'.index = c.index.erase key
  settings : c'.settings = c.settings
  epoch : c'.epoch = c.epoch
  nextEdge : c'.nextEdge = c.nextEdge

theorem any_item?_iff {id : ItemId} {p : Item → Bool} :
    (c.item? id).any p = true ↔ ∃ i, c.item? id = some i ∧ p i = true := by
  cases c.item? id <;> simp

theorem item?_unlist? {p : ItemId} {e : EdgeId} (h : c.unlist? p e = some c') (id : ItemId) :
    c'.item? id = (c.item? id).map fun i =>
      { i with childEdges := if id = p then i.childEdges.erase e else i.childEdges } := by
  rw [unlist?] at h
  split at h
  · cases h
    rw [item?_modifyItem]
    cases c.item? id <;> by_cases hp : id = p <;> simp [hp]
  · next hn =>
    split at h
    · cases h
      show c.item? id = _
      cases hi : c.item? id with
      | none => rfl
      | some i =>
        have herase : (if id = p then i.childEdges.erase e else i.childEdges) = i.childEdges := by
          split
          · next hp =>
            refine List.erase_of_not_mem fun hm => hn (any_item?_iff.mpr ⟨i, hp ▸ hi, ?_⟩)
            simpa using hm
          · rfl
        simp only [Option.map_some, herase]
    · cases h

theorem unlist?_eq_some {p : ItemId} {e : EdgeId} (h : c.unlist? p e = some c') :
    c' = { c with items := c'.items, deferred := c'.deferred } ∧
      (((∃ i, c.item? p = some i ∧ e ∈ i.childEdges) ∧ c'.deferred = c.deferred) ∨
        ((∀ i, c.item? p = some i → e ∉ i.childEdges) ∧ e ∈ c.deferred ∧
          c'.deferred = c.deferred.erase e)) := by
  rw [unlist?] at h
  split at h
  · next hc =>
    cases h
    obtain ⟨i, hi, hm⟩ := any_item?_iff.mp hc
    exact ⟨rfl, .inl ⟨⟨i, hi, by simpa using hm⟩, rfl⟩⟩
  · next hn =>
    split at h
    · next hd =>
      cases h
      refine ⟨rfl, .inr ⟨fun i hi hm => hn (any_item?_iff.mpr ⟨i, hi, ?_⟩), hd, rfl⟩⟩
      simpa using hm
    · cases h

theorem unlinked_of_unlink? {key : Membership} (h : c.unlink? key = some c') :
    ∃ e, c.Unlinked key e c' := by
  rw [unlink?] at h
  obtain ⟨e, he, h⟩ := Option.bind_eq_some_iff.mp h
  obtain ⟨i, hi, h⟩ := Option.bind_eq_some_iff.mp h
  split at h
  · next hm =>
    obtain ⟨listed, hl, h⟩ := Option.bind_eq_some_iff.mp h
    obtain ⟨heq, hc⟩ := unlist?_eq_some hl
    have hs : listed.settings = c.settings := by rw [heq]
    have hepoch : listed.epoch = c.epoch := by rw [heq]
    have hnext : listed.nextEdge = c.nextEdge := by rw [heq]
    cases h
    refine ⟨e, he, ⟨i, hi, hm⟩, hc, fun id => ?_, rfl, rfl, hs, hepoch, hnext⟩
    show ((listed.modifyItem key.item _).item? id) = _
    rw [item?_modifyItem, item?_unlist? hl]
    cases c.item? id <;> by_cases h₁ : id = key.item <;> simp [h₁]
  · cases h

/-- **Unlinking succeeds** exactly if the edge that the index names is on both sides. -/
theorem unlink?_isSome_iff {key : Membership} :
    (∃ c', c.unlink? key = some c') ↔
      ∃ e, c.index.find? key = some e ∧ (∃ i, c.item? key.item = some i ∧ e ∈ i.parentEdges) ∧
        ((∃ i, c.item? key.container = some i ∧ e ∈ i.childEdges) ∨ e ∈ c.deferred) := by
  constructor
  · rintro ⟨c', h⟩
    obtain ⟨e, hu⟩ := unlinked_of_unlink? h
    exact ⟨e, hu.named, hu.on_item, hu.on_container.imp (·.1) (·.2.1)⟩
  · rintro ⟨e, he, ⟨i, hi, hm⟩, hc⟩
    have hl : ∃ listed, c.unlist? key.container e = some listed := by
      unfold unlist?
      split
      · exact ⟨_, rfl⟩
      · next hn =>
        rcases hc with ⟨j, hj, hc⟩ | hd
        · exact absurd (any_item?_iff.mpr ⟨j, hj, by simpa using hc⟩) hn
        · exact ⟨_, if_pos hd⟩
    obtain ⟨listed, hl⟩ := hl
    rw [unlink?, he]
    simp only [Option.bind_eq_bind, Option.bind_some, hi, hm, if_true, hl]
    exact ⟨_, rfl⟩

namespace Unlinked

variable {key : Membership} {e : EdgeId}

theorem edge? (h : c.Unlinked key e c') (e' : EdgeId) :
    c'.edge? e' = if e' = e then none else c.edge? e' := by
  rw [Cabinet.edge?, h.edges]
  exact SortedMap.find?_erase c.edges e e'

theorem find?_index (h : c.Unlinked key e c') (key' : Membership) :
    c'.index.find? key' = if key' = key then none else c.index.find? key' := by
  rw [h.index]
  exact SortedMap.find?_erase c.index key key'

end Unlinked

/-! ## Deferred edges -/

theorem flush_eq (l : List EdgeId) (c : Cabinet) :
    (flush l c).1 = { c with items := (flush l c).1.items } := by
  induction l generalizing c with
  | nil => rfl
  | cons e rest ih =>
    unfold flush
    split
    · split
      · rw [ih]
        rfl
      · exact ih c
    · exact ih c

theorem item?_flush (l : List EdgeId) (c : Cabinet) (id : ItemId) :
    (flush l c).1.item? id = (c.item? id).map fun i =>
      { i with
        childEdges := i.childEdges ++ l.filter fun e => (c.edge? e).any (·.container = id) } := by
  induction l generalizing c with
  | nil => cases h : c.item? id <;> simp [flush, h]
  | cons e rest ih =>
    unfold flush
    cases he : c.edge? e with
    | none => simp [ih, he]
    | some edge =>
      simp only [Option.map_some]
      split
      · rw [ih, item?_modifyItem]
        cases hi : c.item? id with
        | none => simp
        | some i =>
          by_cases hc : id = edge.container
          · simp [hc, he]
          · simp [hc, he, Ne.symm hc]
      · next hn =>
        rw [ih]
        cases hi : c.item? id with
        | none => rfl
        | some i =>
          have hc : edge.container ≠ id := fun hc => hn (by
            rw [contains, SortedMap.contains_eq_true_iff, hc]
            exact ⟨i, hi⟩)
          simp [he, hc]

theorem flushDeferred_eq (c : Cabinet) :
    c.flushDeferred.1 = { c with items := c.flushDeferred.1.items, deferred := [] } :=
  flush_eq c.deferred { c with deferred := [] }

theorem item?_flushDeferred (c : Cabinet) (id : ItemId) :
    c.flushDeferred.1.item? id = (c.item? id).map fun i =>
      { i with
        childEdges := i.childEdges ++
          c.deferred.filter fun e => (c.edge? e).any (·.container = id) } :=
  item?_flush c.deferred { c with deferred := [] } id

theorem edge?_flushDeferred (c : Cabinet) (e : EdgeId) :
    c.flushDeferred.1.edge? e = c.edge? e := by
  rw [flushDeferred_eq]
  rfl

end Filing.Cabinet
