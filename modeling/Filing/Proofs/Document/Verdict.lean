import Filing.Proofs.Document.RoundTrip

/-!
# The verdict on a document

What was read without a check need not be in order, and the check can be asked for afterwards.  It
makes several passes that count and collect, and it stops at the first defect; but what it decides
is a plain property of the records.  A cabinet is *in order* (`InOrder`) when no two edges share
their ends, the ends of every edge are stored, every edge is listed once by its item and once by its
container or among the deferred edges, every reference leads to an edge, and the edges close no
cycle.

* `verify_eq_ok_iff_inOrder`: **the check of a cabinet with the index of its edges passes exactly if
  the cabinet is in order.**
* `verifyBy_eq_verify`: the cycles may be found by any topological sort that fails on cycles only.
* `verdict_of_ofDocument`: the verdict on any document that was read.

The index that is made from the edges leaves out a pair of ends that occurs again.  It never has
more entries than there are edges, so the number of edges that share a pair is a difference of
naturals.
-/

namespace Filing

open Cabinet Relation

namespace Cabinet

variable {c : Cabinet} {settings : Settings} {epoch : Epoch} {text : String}

/-- **A cabinet in order.** -/
structure InOrder (c : Cabinet) : Prop where
  /-- No two edges share their pair of ends. -/
  pair_unique : ∀ {e e' edge edge'}, c.edge? e = some edge → c.edge? e' = some edge' →
    edge.item = edge'.item → edge.container = edge'.container → e = e'
  /-- Both ends of an edge are stored. -/
  ends_stored : ∀ {e edge}, c.edge? e = some edge →
    (∃ i, c.item? edge.item = some i) ∧ ∃ i, c.item? edge.container = some i
  /-- An edge is listed once as a membership. -/
  count_itemSide : ∀ {e edge}, c.edge? e = some edge → c.itemSide.count e = 1
  /-- It is listed there by its item. -/
  parent_lister : ∀ {e edge id i}, c.edge? e = some edge → c.item? id = some i →
    e ∈ i.parentEdges → id = edge.item
  /-- An edge is listed once as a member, deferred edges included. -/
  count_containerSide : ∀ {e edge}, c.edge? e = some edge → c.containerSide.count e = 1
  /-- If an item lists it there, this is its container. -/
  child_lister : ∀ {e edge id i}, c.edge? e = some edge → c.item? id = some i →
    e ∈ i.childEdges → id = edge.container
  /-- Every reference leads to an edge. -/
  resolved : ∀ {e}, e ∈ c.itemSide ∨ e ∈ c.containerSide → ∃ edge, c.edge? e = some edge
  /-- No item lies above itself. -/
  acyclic : c.Acyclic

/-! ## From the check to the order -/

theorem Coherent.inOrder (h : c.Coherent) (hacyclic : c.Acyclic)
    (hn : (c.edges.values.map (·.key)).Nodup) : c.InOrder where
  pair_unique {e e' edge edge'} he he' hi hc :=
    SortedMap.nodup_map_values_iff.mp hn he he' (congrArg₂ Membership.mk hi hc)
  ends_stored {e edge} he := by
    obtain ⟨i, hi, _⟩ := h.parent_listed he
    obtain ⟨i', hi', _⟩ := h.child_listed he
    exact ⟨⟨i, hi⟩, i', hi'⟩
  count_itemSide he := List.count_eq_one_of_mem h.nodup_itemSide (h.mem_sides he).1
  parent_lister {e edge id i} he hi hm := by
    obtain ⟨edge', he', hid⟩ := h.parent_stored hi hm
    rw [Option.some.inj (he.symm.trans he'), hid]
  count_containerSide he := List.count_eq_one_of_mem h.nodup_containerSide (h.mem_sides he).2
  child_lister {e edge id i} he hi hm := by
    obtain ⟨edge', he', hid⟩ := h.child_stored hi hm
    rw [Option.some.inj (he.symm.trans he'), hid]
  resolved {e} hm := by
    rcases hm with hm | hm
    · obtain ⟨id, i, hi, hm⟩ := mem_itemSide.mp hm
      exact (h.parent_stored hi hm).imp fun _ => And.left
    · rcases mem_containerSide.mp hm with ⟨id, i, hi, hm⟩ | hm
      · exact (h.child_stored hi hm).imp fun _ => And.left
      · exact h.deferred_stored hm
  acyclic := hacyclic

/-! ## From the order to the check -/

namespace InOrder

theorem nodup_keys (h : c.InOrder) : (c.edges.values.map (·.key)).Nodup :=
  SortedMap.nodup_map_values_iff.mpr fun he he' hk =>
    h.pair_unique he he' (congrArg Membership.item hk) (congrArg Membership.container hk)

theorem entryStored (h : c.InOrder) {id : ItemId} {i : Item} (hi : c.item? id = some i) :
    c.EntryStored (id, i) := by
  constructor <;> intro e hm
  · obtain ⟨edge, he⟩ := h.resolved (.inl (mem_itemSide.mpr ⟨id, i, hi, hm⟩))
    exact ⟨edge, he, (h.parent_lister he hi hm).symm⟩
  · obtain ⟨edge, he⟩ := h.resolved (.inr (mem_containerSide.mpr (.inl ⟨id, i, hi, hm⟩)))
    exact ⟨edge, he, (h.child_lister he hi hm).symm⟩

theorem nodup_itemSide (h : c.InOrder) : c.itemSide.Nodup :=
  List.nodup_iff_count_eq_one.mpr fun _ hm =>
    (h.resolved (.inl hm)).elim fun _ he => h.count_itemSide he

theorem nodup_containerSide (h : c.InOrder) : c.containerSide.Nodup :=
  List.nodup_iff_count_eq_one.mpr fun _ hm =>
    (h.resolved (.inr hm)).elim fun _ he => h.count_containerSide he

theorem verifyReferences (h : c.InOrder) (hs : c.index.size = c.edges.size) :
    c.verifyReferences = .ok () := by
  refine verifyReferences_eq_ok_iff.mpr ⟨hs, fun entry hm => ?_, fun e he => ?_,
    h.nodup_itemSide, h.nodup_containerSide, fun e hk => ?_⟩
  · exact h.entryStored (SortedMap.mem_entries_iff.mp hm)
  · exact h.resolved (.inr (mem_containerSide.mpr (.inr he)))
  · obtain ⟨edge, he⟩ := SortedMap.mem_keys_iff.mp hk
    exact ⟨List.one_le_count_iff.mp (h.count_itemSide he).ge,
      List.one_le_count_iff.mp (h.count_containerSide he).ge⟩

end InOrder

/-- **The check passes exactly if the cabinet is in order**, where the index was made from the
edges. -/
theorem verify_eq_ok_iff_inOrder (hx : c.index = indexOf c.edges) :
    c.verify = .ok () ↔ c.InOrder := by
  have hsize : c.index.size = c.edges.size ↔ (c.edges.values.map (·.key)).Nodup := by
    rw [hx, size_indexOf_eq_iff]
  rw [verify_eq_ok_iff]
  constructor
  · rintro ⟨hs, hc, ha⟩
    exact hc.inOrder ha (hsize.mp hs)
  · intro h
    have hs := hsize.mpr h.nodup_keys
    have he : c.verifyEnds = .ok () := verifyEnds_eq_ok_iff.mpr fun _ _ => h.ends_stored
    exact ⟨hs, coherent_of_verified (h.verifyReferences hs) he, h.acyclic⟩

/-! ## Topological sorts -/

/-- **What is relied on of a topological sort**: on a graph without repeated nodes, whose arcs run
between its nodes, it succeeds exactly if no arcs lead from a node back to it. -/
def SortsAcyclic (sorts : List ItemId → List (ItemId × ItemId) → Bool) : Prop :=
  ∀ nodes arcs, nodes.Nodup → (∀ arc ∈ arcs, arc.1 ∈ nodes ∧ arc.2 ∈ nodes) →
    (sorts nodes arcs = true ↔ ∀ a, ¬TransGen (fun x y => (x, y) ∈ arcs) a a)

/-- The check, with a topological sort of the stored items to find the cycles. -/
def verifyBy (sorts : List ItemId → List (ItemId × ItemId) → Bool) (c : Cabinet) :
    Except Defect Unit := do
  c.verifyReferences
  c.verifyEnds
  if sorts c.items.keys c.arcs then .ok () else .error .cyclic

/-- **The check is the same for every topological sort**: when it comes to the cycles, the arcs run
between stored items. -/
theorem verifyBy_eq_verify {sorts : List ItemId → List (ItemId × ItemId) → Bool}
    (hs : SortsAcyclic sorts) (c : Cabinet) : c.verifyBy sorts = c.verify := by
  rw [verifyBy, verify]
  cases c.verifyReferences with
  | error d => rfl
  | ok =>
    cases he : c.verifyEnds with
    | error d => rfl
    | ok =>
      have hnodes : ∀ arc ∈ c.arcs, arc.1 ∈ c.items.keys ∧ arc.2 ∈ c.items.keys := by
        rintro ⟨a, b⟩ hm
        obtain ⟨e, edge, hedge, rfl, rfl⟩ := mem_arcs_iff.mp hm
        obtain ⟨hi, hc⟩ := verifyEnds_eq_ok_iff.mp he e edge hedge
        exact ⟨SortedMap.mem_keys_iff.mpr hc, SortedMap.mem_keys_iff.mpr hi⟩
      have hsame : sorts c.items.keys c.arcs = Graph.isAcyclic c.arcs := by
        rw [Bool.eq_iff_iff, hs _ _ c.items.keys_nodup hnodes, Graph.isAcyclic_iff]
      rw [hsame]

/-! ## The verdict -/

/-- **The verdict on a document**, whether it was checked when it was read or not: the check passes
exactly if the cabinet is in order, and otherwise it tells a defect of the graph.  The number of
edges that share a pair of ends is not below zero. -/
theorem verdict_of_ofDocument {sorts : List ItemId → List (ItemId × ItemId) → Bool}
    (hs : SortsAcyclic sorts) (h : ofDocument text settings epoch = .ok c) :
    (c.verifyBy sorts = .ok () ↔ c.InOrder) ∧
      (¬c.InOrder → ∃ d, (c.verifyBy sorts).mapError Failure.inconsistent =
        .error (.inconsistent d)) ∧
      c.index.size ≤ c.edges.size := by
  have hx : c.index = indexOf c.edges := (of_ofDocument h).2.2.2
  have hiff : c.verifyBy sorts = .ok () ↔ c.InOrder := by
    rw [verifyBy_eq_verify hs, verify_eq_ok_iff_inOrder hx]
  refine ⟨hiff, fun hn => ?_, hx ▸ size_indexOf_le c.edges⟩
  cases hv : c.verifyBy sorts with
  | error d => exact ⟨d, rfl⟩
  | ok => exact absurd (hiff.mp hv) hn

/-- Two folders that hold each other, with all lists right, read without a check. -/
def knotted : Cabinet :=
  let edges := .ofList
    [(⟨1⟩, .make ⟨1⟩ ⟨.ofNat 2, .ofNat 1⟩ .anonymous .start),
      (⟨2⟩, .make ⟨2⟩ ⟨.ofNat 1, .ofNat 2⟩ .anonymous .start)]
  { empty { Settings.standard with verifyOnLoad := false } 0 with
    items := .ofList
      [(.ofNat 1, { Item.bare 1 (.container .folder) [] with
          parentEdges := [⟨2⟩], childEdges := [⟨1⟩] }),
        (.ofNat 2, { Item.bare 2 (.container .folder) [] with
          parentEdges := [⟨1⟩], childEdges := [⟨2⟩] })]
    edges
    index := indexOf edges
    nextEdge := ⟨3⟩ }

theorem verdict_of_ofDocument_knotted :
    SortsAcyclic (fun _ arcs => Graph.isAcyclic arcs) ∧
      ofDocument knotted.document knotted.settings knotted.epoch = .ok knotted ∧
      knotted.verifyBy (fun _ arcs => Graph.isAcyclic arcs) = .error .cyclic ∧
      ¬knotted.InOrder := by
  have hs : SortsAcyclic fun _ arcs => Graph.isAcyclic arcs := fun _ arcs _ _ =>
    Graph.isAcyclic_iff arcs
  have hload : ofDocument knotted.document knotted.settings knotted.epoch = .ok knotted :=
    (ofDocument_document rfl).mpr ⟨rfl, .inl rfl⟩
  have hv : knotted.verifyBy (fun _ arcs => Graph.isAcyclic arcs) = .error .cyclic := by cbv
  refine ⟨hs, hload, hv, fun ho => ?_⟩
  rw [(verdict_of_ofDocument hs hload).1.mpr ho] at hv
  cases hv

end Cabinet

end Filing
