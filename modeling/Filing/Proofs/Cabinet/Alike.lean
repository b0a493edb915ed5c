import Filing.Proofs.Generation

/-!
# Cabinets that differ in the lists of members only

A container may list the edges of its members in any order, and some of them may wait among the
deferred edges.  Two cabinets are *alike* if they differ in this at most, and in their epochs and
the times that edges bear (`Alike`).  What is the same in both is the essence of an item and of an
edge (`Item.essence`, `Edge.essence`).

* `Alike.flushDeferred`: **a cabinet is like itself with the deferred edges listed**.
* `Alike.parents`, `Alike.holds_iff`: **alike cabinets have the same memberships**.
* `Twins.children_perm`, `Twins.visibleChildren_perm`: if both are sound (`Twins`), each container
  has the same members, and the same ones are visible.
* `Twins.withEdge`, `Twins.unlink?`: linking and unlinking keep twins alike; an edge that one of
  them can take out so can the other, wherever they list it.
-/

namespace Filing

variable {c c' c'' : Cabinet}

/-! ## Essences -/

/-- An item without the list of its members. -/
def Item.essence (i : Item) : Item := { i with childEdges := [] }

theorem Item.essence_eq_iff {i i' : Item} :
    i'.essence = i.essence ↔ ∃ l, i' = { i with childEdges := l } := by
  constructor
  · intro h
    refine ⟨i'.childEdges, ?_⟩
    show { i'.essence with childEdges := i'.childEdges } = _
    rw [h]
    rfl
  · rintro ⟨l, rfl⟩
    rfl

/-- An edge without its times. -/
def Edge.essence (e : Edge) : Edge := { e with createdAt := .start, deletedAt := none }

theorem Edge.key_eq_of_essence {e e' : Edge} (h : e'.essence = e.essence) : e'.key = e.key :=
  show e'.essence.key = e.essence.key by rw [h]

namespace Cabinet

/-- The cabinets differ in the lists of members at most, in what is deferred, in their epochs and in
the times of edges. -/
structure Alike (c c' : Cabinet) : Prop where
  settings : c'.settings = c.settings
  item : ∀ id, (c'.item? id).map Item.essence = (c.item? id).map Item.essence
  edge : ∀ e, (c'.edge? e).map Edge.essence = (c.edge? e).map Edge.essence
  index : c'.index = c.index
  nextEdge : c'.nextEdge = c.nextEdge
  generation : c'.generation = c.generation

namespace Alike

theorem symm (h : Alike c c') : Alike c' c :=
  ⟨h.settings.symm, fun id => (h.item id).symm, fun e => (h.edge e).symm, h.index.symm,
    h.nextEdge.symm, h.generation.symm⟩

theorem trans (h : Alike c c') (h' : Alike c' c'') : Alike c c'' :=
  ⟨h'.settings.trans h.settings, fun id => (h'.item id).trans (h.item id),
    fun e => (h'.edge e).trans (h.edge e), h'.index.trans h.index, h'.nextEdge.trans h.nextEdge,
    h'.generation.trans h.generation⟩

/-- **A cabinet is like itself with the deferred edges listed.** -/
theorem flushDeferred (c : Cabinet) : Alike c c.flushDeferred.1 where
  settings := by rw [flushDeferred_eq]
  item id := by
    rw [item?_flushDeferred]
    cases c.item? id <;> rfl
  edge e := by rw [edge?_flushDeferred]
  index := by rw [flushDeferred_eq]
  nextEdge := by rw [flushDeferred_eq]
  generation := by rw [flushDeferred_eq]

/-! ## Look-ups -/

section LookUps

variable {id : ItemId} {i : Item} {e : EdgeId} {edge : Edge}

theorem item?_of_none (h : Alike c c') (hi : c.item? id = none) : c'.item? id = none := by
  have := h.item id
  rwa [hi, Option.map_none, Option.map_eq_none_iff] at this

theorem item?_of_some (h : Alike c c') (hi : c.item? id = some i) :
    ∃ l, c'.item? id = some { i with childEdges := l } := by
  have := h.item id
  rw [hi, Option.map_some] at this
  obtain ⟨i', hi', hess⟩ := Option.map_eq_some_iff.mp this
  obtain ⟨l, rfl⟩ := Item.essence_eq_iff.mp hess
  exact ⟨l, hi'⟩

theorem edge?_of_none (h : Alike c c') (he : c.edge? e = none) : c'.edge? e = none := by
  have := h.edge e
  rwa [he, Option.map_none, Option.map_eq_none_iff] at this

theorem edge?_of_some (h : Alike c c') (he : c.edge? e = some edge) :
    ∃ edge', c'.edge? e = some edge' ∧ edge'.essence = edge.essence := by
  have := h.edge e
  rw [he, Option.map_some] at this
  exact Option.map_eq_some_iff.mp this

theorem sameAbove (h : Alike c c') : SameAbove c c' where
  item id := by
    have hup : Item.upward = Item.upward ∘ Item.essence := rfl
    rw [hup, ← Option.map_map, h.item, Option.map_map]
  edge e := by
    have hkey : Edge.key = Edge.key ∘ Edge.essence := rfl
    rw [hkey, ← Option.map_map, h.edge, Option.map_map]

theorem holds_iff (h : Alike c c') {p id : ItemId} : c'.Holds p id ↔ c.Holds p id := by
  have hmp : ∀ {c c' : Cabinet}, Alike c c' → c.Holds p id → c'.Holds p id := by
    rintro c c' h ⟨e, edge, he, rfl, rfl⟩
    obtain ⟨edge', he', hess⟩ := h.edge?_of_some he
    have hk := Edge.key_eq_of_essence hess
    exact ⟨e, edge', he', congrArg Membership.container hk, congrArg Membership.item hk⟩
  exact ⟨hmp h.symm, hmp h⟩

theorem holds_eq (h : Alike c c') : c'.Holds = c.Holds := by
  funext p id
  exact propext h.holds_iff

theorem parentEdges (h : Alike c c') (id : ItemId) :
    (c'.parentEdges id).map Edge.essence = (c.parentEdges id).map Edge.essence := by
  unfold Cabinet.parentEdges
  cases hi : c.item? id with
  | none => rw [h.item?_of_none hi]
  | some i =>
    obtain ⟨l, hi'⟩ := h.item?_of_some hi
    rw [hi']
    simp only [List.map_filterMap, h.edge]

theorem parents (h : Alike c c') (id : ItemId) : c'.parents id = c.parents id := by
  have := congrArg (List.map Edge.container) (h.parentEdges id)
  rwa [List.map_map, List.map_map] at this

end LookUps

/-! ## Requests for items -/

section Requests

variable {α : Type} {f f' : Item → Except Failure α}

theorem item_bind (h : Alike c c') (id : ItemId)
    (hf : ∀ i l, c.item? id = some i → f' { i with childEdges := l } = f i) :
    (c'.item id >>= f') = (c.item id >>= f) := by
  cases hi : c.item? id with
  | none => rw [item_of_none hi, item_of_none (h.item?_of_none hi)]; rfl
  | some i =>
    obtain ⟨l, hi'⟩ := h.item?_of_some hi
    rw [item_of_some hi, item_of_some hi']
    exact hf i l hi

theorem container_bind (h : Alike c c') (id : ItemId)
    (hf : ∀ i l, c.item? id = some i → f' { i with childEdges := l } = f i) :
    (c'.container id >>= f') = (c.container id >>= f) := by
  have hc : ∀ {c : Cabinet} {f : Item → Except Failure α}, (c.container id >>= f) =
      c.item id >>= fun i => if i.isContainer then f i else .error (.notContainer id) := by
    intro c f
    rw [container]
    cases c.item id with
    | error => rfl
    | ok i =>
      show ((if i.isContainer then .ok i else .error (.notContainer id)) >>= f) = _
      split
      · next h => exact (if_pos h).symm
      · next h => exact (if_neg h).symm
  rw [hc, hc]
  refine h.item_bind id fun i l hi => ?_
  show (if i.isContainer then _ else _) = _
  rw [hf i l hi]

theorem checkAdd (h : Alike c c') (parent child : ItemId) (policy : AddPolicy) :
    c'.checkAdd parent child policy = c.checkAdd parent child policy := by
  unfold Cabinet.checkAdd
  rw [h.sameAbove.checkCycle]
  by_cases hne : parent = child
  · rw [if_pos hne, if_pos hne]
    rfl
  · rw [if_neg hne, if_neg hne]
    refine h.container_bind parent fun i l _ => h.item_bind child fun j l' _ => ?_
    cases policy <;> rfl

end Requests

/-! ## Changes -/

section Changes

variable {f : Item → Item}

theorem map_essence (h : Alike c c') (id : ItemId) {f' : Item → Item}
    (hf : ∀ i l, (f' { i with childEdges := l }).essence = (f i).essence) :
    ((c'.item? id).map f').map Item.essence = ((c.item? id).map f).map Item.essence := by
  cases hi : c.item? id with
  | none => rw [h.item?_of_none hi]; rfl
  | some i =>
    obtain ⟨l, hi'⟩ := h.item?_of_some hi
    rw [hi', Option.map_some, Option.map_some, Option.map_some, Option.map_some, hf]

theorem modifyItem (h : Alike c c') (id : ItemId)
    (hf : ∀ i l, (f { i with childEdges := l }).essence = (f i).essence) :
    Alike (c.modifyItem id f) (c'.modifyItem id f) := by
  refine ⟨h.settings, fun j => ?_, h.edge, h.index, h.nextEdge, h.generation⟩
  rw [item?_modifyItem, item?_modifyItem]
  split
  · exact h.map_essence j hf
  · exact h.item j

theorem insertItem (h : Alike c c') (item : Item) :
    Alike (c.insertItem item) (c'.insertItem item) := by
  refine ⟨h.settings, fun j => ?_, h.edge, h.index, h.nextEdge, congrArg (· + 1) h.generation⟩
  rw [item?_insertItem, item?_insertItem]
  split
  · rfl
  · exact h.item j

theorem eraseItem (h : Alike c c') (id : ItemId) : Alike (c.eraseItem id) (c'.eraseItem id) := by
  refine ⟨h.settings, fun j => ?_, h.edge, h.index, h.nextEdge, congrArg (· + 1) h.generation⟩
  rw [item?_eraseItem, item?_eraseItem]
  split
  · rfl
  · exact h.item j

theorem withEdge (h : Alike c c') (key : Membership) (owner : Principal) (defer defer' : Bool)
    (now now' : Timestamp) :
    Alike (c.withEdge key owner defer now) (c'.withEdge key owner defer' now') where
  settings := by rw [settings_withEdge, settings_withEdge, h.settings]
  item id := by
    rw [item?_withEdge, item?_withEdge, h.nextEdge]
    exact h.map_essence id fun i l => rfl
  edge e := by
    rw [edge?_withEdge, edge?_withEdge, h.nextEdge]
    split
    · rfl
    · exact h.edge e
  index := by rw [index_withEdge, index_withEdge, h.index, h.nextEdge]
  nextEdge := congrArg EdgeId.next h.nextEdge
  generation := by
    have hg : ∀ (c : Cabinet) (defer : Bool) (now : Timestamp),
        (c.withEdge key owner defer now).generation = c.generation + 1 := fun c defer now => by
      cases defer <;> rfl
    rw [hg, hg, h.generation]

theorem unlinked (h : Alike c c') {d d' : Cabinet} {key : Membership} {e : EdgeId}
    (hu : c.Unlinked key e d) (hu' : c'.Unlinked key e d')
    (hg : d.generation = c.generation + 1) (hg' : d'.generation = c'.generation + 1) :
    Alike d d' where
  settings := by rw [hu.settings, hu'.settings, h.settings]
  item id := by
    rw [hu.item?, hu'.item?]
    exact h.map_essence id fun i l => rfl
  edge e' := by
    rw [hu.edge?, hu'.edge?]
    split
    · rfl
    · exact h.edge e'
  index := by rw [hu.index, hu'.index, h.index]
  nextEdge := by rw [hu.nextEdge, hu'.nextEdge, h.nextEdge]
  generation := by rw [hg, hg', h.generation]

theorem markEdge (h : Alike c c') (e : EdgeId) (deleted : Bool) (now now' : Timestamp) :
    Alike (c.markEdge e deleted now) (c'.markEdge e deleted now') := by
  refine ⟨h.settings, h.item, fun e' => ?_, h.index, h.nextEdge, h.generation⟩
  rw [edge?_markEdge, edge?_markEdge]
  split
  · cases he : c.edge? e' with
    | none => rw [h.edge?_of_none he]; rfl
    | some edge =>
      obtain ⟨edge', he', hess⟩ := h.edge?_of_some he
      have hmark : ∀ edge : Edge, (edge.mark deleted now).essence =
          { edge.essence with deleted } := fun edge => rfl
      have hmark' : (edge'.mark deleted now').essence = { edge'.essence with deleted } := rfl
      rw [he', Option.map_some, Option.map_some, Option.map_some, Option.map_some, hmark, hmark',
        hess]
  · exact h.edge e'

end Changes

end Alike

/-! ## Twins -/

/-- Two sound cabinets that are alike. -/
structure Twins (c c' : Cabinet) : Prop where
  alike : Alike c c'
  left : c.Sound
  right : c'.Sound

namespace Twins

theorem childEdges_perm (h : Twins c c') (id : ItemId) :
    ((c'.childEdges id).map Edge.essence).Perm ((c.childEdges id).map Edge.essence) := by
  have hnodup : ∀ {c : Cabinet}, c.Sound → ((c.childEdges id).map Edge.essence).Nodup := by
    intro c hs
    have hn := hs.children_nodup id
    rw [children, show Edge.item = Edge.item ∘ Edge.essence from rfl, ← List.map_map] at hn
    exact hn.of_map _
  have hmem : ∀ {c c' : Cabinet}, Alike c c' → c.Sound → c'.Sound →
      ∀ x ∈ (c.childEdges id).map Edge.essence, x ∈ (c'.childEdges id).map Edge.essence := by
    intro c c' h hs hs' x hx
    obtain ⟨edge, hm, rfl⟩ := List.mem_map.mp hx
    obtain ⟨e, he, hc⟩ := hs.mem_childEdges_iff.mp hm
    obtain ⟨edge', he', hess⟩ := h.edge?_of_some he
    have hc' : edge'.container = id :=
      (congrArg Membership.container (Edge.key_eq_of_essence hess)).trans hc
    exact List.mem_map.mpr ⟨edge', hs'.mem_childEdges_iff.mpr ⟨e, he', hc'⟩, hess⟩
  exact (List.perm_ext_iff_of_nodup (hnodup h.right) (hnodup h.left)).mpr fun x =>
    ⟨hmem h.alike.symm h.right h.left x, hmem h.alike h.left h.right x⟩

theorem children_perm (h : Twins c c') (id : ItemId) : (c'.children id).Perm (c.children id) := by
  have hp := (h.childEdges_perm id).map Edge.item
  rwa [List.map_map, List.map_map] at hp

theorem visibleChildren_perm (h : Twins c c') (id : ItemId) :
    (c'.visibleChildren id).Perm (c.visibleChildren id) := by
  -- whether a member is visible does not depend on the times of its edge
  have hvisible : ∀ c : Cabinet, c.visibleChildren id =
      (((c.childEdges id).map Edge.essence).filter fun e => !e.deleted &&
        ((c.item? e.item).map Item.essence).any fun i => !i.deleted).map Edge.item := by
    intro c
    rw [visibleChildren, List.filter_map, List.map_map]
    refine congrArg (List.map Edge.item) (List.filter_congr fun e _ => ?_)
    show _ = (!e.deleted && ((c.item? e.item).map Item.essence).any fun i => !i.deleted)
    cases c.item? e.item <;> rfl
  rw [hvisible, hvisible]
  simp only [h.alike.item]
  exact ((h.childEdges_perm id).filter _).map _

theorem of_retouched {d d' : Cabinet} (h : Twins c c') (hd : c.Retouched d) (hd' : c'.Retouched d')
    (ha : Alike d d') : Twins d d' := ⟨ha, hd.sound h.left, hd'.sound h.right⟩

/-- **A membership can be ended in both or in neither**, wherever its container lists it. -/
theorem unlink? (h : Twins c c') (key : Membership) :
    (c.unlink? key = none ∧ c'.unlink? key = none) ∨
      ∃ d d', c.unlink? key = some d ∧ c'.unlink? key = some d' ∧ Twins d d' := by
  cases hx : c.index.find? key with
  | none =>
    have hnone : ∀ {c : Cabinet}, c.index.find? key = none → c.unlink? key = none := by
      intro c hx
      rw [Cabinet.unlink?, hx]
      rfl
    exact .inl ⟨hnone hx, hnone (h.alike.index ▸ hx)⟩
  | some e =>
    have hx' : c'.index.find? key = some e := by rw [h.alike.index, hx]
    obtain ⟨edge, he, hk⟩ := h.left.index_iff.mp hx
    obtain ⟨edge', he', hk'⟩ := h.right.index_iff.mp hx'
    obtain ⟨d, hd, hu⟩ := h.left.exists_unlinked hx he hk
    obtain ⟨d', hd', hu'⟩ := h.right.exists_unlinked hx' he' hk'
    refine .inr ⟨d, d', hd, hd', ?_, h.left.unlinked hu, h.right.unlinked hu'⟩
    exact h.alike.unlinked hu hu' (generation_of_unlink? hd) (generation_of_unlink? hd')

end Twins

end Cabinet

end Filing
