import Filing.Breadcrumb
import Filing.Proofs.Ascent.Cycle
import Filing.Proofs.Ascent.Search
import Filing.Proofs.Inheritance.Flow

/-!
# What a search upwards sees

A search reads of an item which edges it lists, what kind it is of and whose it is, and of an edge
which membership it stands for.  Grants, deletion marks, the lists of members, the index and the
deferred edges are out of its sight.  Two cabinets in which a search sees the same are called the
same above (`SameAbove`).

* `SameAbove.ascend?`: **every search ends alike in both**, its way included.
* `SameAbove.breadcrumb`, `SameAbove.checkCycle`: so do breadcrumbs and the check before a new
  membership.
-/

namespace Filing

/-- What a search upwards sees of an item. -/
def Item.upward (i : Item) : Item := { i with deleted := false, access := ∅, childEdges := [] }

/-- A search sees no more of an item than `Item.upward`, and no more of an edge than its
membership. -/
structure Quest.Plain (q : Quest) : Prop where
  isTarget : ∀ {i j : Item}, i.upward = j.upward → q.isTarget i = q.isTarget j
  isBoundary : ∀ {e e' : Edge}, e.key = e'.key → q.isBoundary e = q.isBoundary e'

namespace Cabinet

/-- The search for a breadcrumb. -/
def trailQuest (c : Cabinet) (t : Trail) : Quest where
  isTarget i := i.id = t.root
  isBoundary :=
    match t.viewer with
    | some user => c.foreignBoundary user
    | none => fun _ => false

theorem breadcrumb_eq (c : Cabinet) (t : Trail) :
    c.breadcrumb t =
      match c.shortestPath? (c.trailQuest t) t.item with
      | some path => .ok path
      | none => .error (.inconsistent (.unresolvable t.root t.item)) := rfl

theorem plain_trailQuest (c : Cabinet) (t : Trail) : (c.trailQuest t).Plain where
  isTarget {i j} hu := by
    have hid : i.id = j.id := (congrArg Item.id hu :)
    simp only [trailQuest, hid]
  isBoundary {e e'} hk := by
    have hup : e.container = e'.container := (congrArg Membership.container hk :)
    rw [trailQuest]
    cases t.viewer with
    | none => rfl
    | some user => simp only [foreignBoundary, hup]

/-- A search upwards sees the same in both cabinets. -/
structure SameAbove (c c' : Cabinet) : Prop where
  item : ∀ id, (c'.item? id).map Item.upward = (c.item? id).map Item.upward
  edge : ∀ e, (c'.edge? e).map Edge.key = (c.edge? e).map Edge.key

namespace SameAbove

variable {c c' c'' : Cabinet} {q : Quest} {id : ItemId} {e : EdgeId}

theorem refl (c : Cabinet) : SameAbove c c := ⟨fun _ => rfl, fun _ => rfl⟩

theorem trans (h : SameAbove c c') (h' : SameAbove c' c'') : SameAbove c c'' :=
  ⟨fun id => (h'.item id).trans (h.item id), fun e => (h'.edge e).trans (h.edge e)⟩

theorem modifyItem (c : Cabinet) (id : ItemId) {f : Item → Item}
    (hf : ∀ i, (f i).upward = i.upward) : SameAbove c (c.modifyItem id f) := by
  refine ⟨fun j => ?_, fun _ => rfl⟩
  rw [item?_modifyItem]
  split
  · rw [Option.map_map]
    exact congrArg (Option.map · _) (funext hf)
  · rfl

theorem regranted (h : c.Regranted c') : SameAbove c c' where
  item := h.map_item? fun _ => rfl
  edge e := by rw [Cabinet.edge?, h.edges, Cabinet.edge?]

/-! ## Look-ups -/

theorem item?_of_none (h : SameAbove c c') (hi : c.item? id = none) : c'.item? id = none := by
  have := h.item id
  rwa [hi, Option.map_none, Option.map_eq_none_iff] at this

theorem item?_of_some (h : SameAbove c c') {i : Item} (hi : c.item? id = some i) :
    ∃ i', c'.item? id = some i' ∧ i'.upward = i.upward := by
  have := h.item id
  rw [hi, Option.map_some] at this
  exact Option.map_eq_some_iff.mp this

theorem edge?_of_none (h : SameAbove c c') (he : c.edge? e = none) : c'.edge? e = none := by
  have := h.edge e
  rwa [he, Option.map_none, Option.map_eq_none_iff] at this

theorem edge?_of_some (h : SameAbove c c') {edge : Edge} (he : c.edge? e = some edge) :
    ∃ edge', c'.edge? e = some edge' ∧ edge'.key = edge.key := by
  have := h.edge e
  rw [he, Option.map_some] at this
  exact Option.map_eq_some_iff.mp this

theorem contains (h : SameAbove c c') (id : ItemId) : c'.contains id = c.contains id := by
  have := congrArg Option.isSome (h.item id)
  rwa [Option.isSome_map, Option.isSome_map] at this

theorem keys (h : SameAbove c c') : c'.items.keys = c.items.keys :=
  SortedMap.keys_eq_of_isSome_eq h.contains

/-! ## Searches -/

theorem followEdges (h : SameAbove c c') (hq : q.Plain) (id : ItemId) (l : List EdgeId)
    (f : Frontier) : c'.followEdges q id l f = c.followEdges q id l f := by
  induction l generalizing f with
  | nil => rfl
  | cons e rest ih =>
    simp only [Cabinet.followEdges, ih]
    cases he : c.edge? e with
    | none => rw [h.edge?_of_none he]
    | some edge =>
      obtain ⟨edge', he', hkey⟩ := h.edge?_of_some he
      have hitem : edge'.item = edge.item := (congrArg Membership.item hkey :)
      have hup : edge'.container = edge.container := (congrArg Membership.container hkey :)
      simp only [he', hitem, hup, hq.isBoundary hkey]
      cases hi : c.item? edge.container with
      | none => rw [h.item?_of_none hi]
      | some i =>
        obtain ⟨i', hi', hu⟩ := h.item?_of_some hi
        simp only [hi', hq.isTarget hu]

theorem ascendFrom (h : SameAbove c c') (hq : q.Plain) (f : Frontier) :
    c'.ascendFrom q f = c.ascendFrom q f := by
  -- one case for each way in which the first item of the queue may be dealt with
  induction f using ascendFrom.induct c q with
  | case1 f hf => rw [Cabinet.ascendFrom, hf, Cabinet.ascendFrom, hf]
  | case2 f id queue hf hi =>
    rw [Cabinet.ascendFrom, hf, Cabinet.ascendFrom, hf]
    simp only [hi, h.item?_of_none hi]
  | case3 f id queue hf i hi g hg ih =>
    obtain ⟨i', hi', hu⟩ := h.item?_of_some hi
    have hl : i'.parentEdges = i.parentEdges := (congrArg Item.parentEdges hu :)
    rw [ascendFrom_cons hf hi', ascendFrom_cons hf hi, h.followEdges hq, hl, hg]
    exact ih
  | case4 f id queue hf i hi up g hg =>
    obtain ⟨i', hi', hu⟩ := h.item?_of_some hi
    have hl : i'.parentEdges = i.parentEdges := (congrArg Item.parentEdges hu :)
    rw [ascendFrom_cons hf hi', ascendFrom_cons hf hi, h.followEdges hq, hl, hg]
  | case5 f id queue hf i hi hg =>
    obtain ⟨i', hi', hu⟩ := h.item?_of_some hi
    have hl : i'.parentEdges = i.parentEdges := (congrArg Item.parentEdges hu :)
    rw [ascendFrom_cons hf hi', ascendFrom_cons hf hi, h.followEdges hq, hl, hg]

theorem ascend? (h : SameAbove c c') (hq : q.Plain) (start : ItemId) :
    c'.ascend? q start = c.ascend? q start := by
  cases hi : c.item? start with
  | none =>
    rw [Cabinet.ascend?, Cabinet.ascend?, hi, h.item?_of_none hi]
    rfl
  | some i =>
    obtain ⟨i', hi', hu⟩ := h.item?_of_some hi
    rw [Cabinet.ascend?, Cabinet.ascend?, hi, hi']
    simp only [Option.bind_eq_bind, Option.bind_some, hq.isTarget hu, h.keys, h.ascendFrom hq]

theorem shortestPath? (h : SameAbove c c') (hq : q.Plain) (start : ItemId) :
    c'.shortestPath? q start = c.shortestPath? q start := by
  rw [Cabinet.shortestPath?, h.ascend? hq]
  rfl

theorem foreignBoundary (h : SameAbove c c') (user : Principal) :
    c'.foreignBoundary user = c.foreignBoundary user := by
  funext e
  rw [Cabinet.foreignBoundary, Cabinet.foreignBoundary]
  cases hi : c.item? e.container with
  | none => rw [h.item?_of_none hi]
  | some i =>
    obtain ⟨i', hi', hu⟩ := h.item?_of_some hi
    have hk : i'.kind = i.kind := (congrArg Item.kind hu :)
    have ho : i'.owner = i.owner := (congrArg Item.owner hu :)
    simp only [hi', Option.any_some, Item.isSharingRoot, hk, ho]

/-- **Breadcrumbs are the same in both cabinets.** -/
theorem breadcrumb (h : SameAbove c c') (t : Trail) : c'.breadcrumb t = c.breadcrumb t := by
  have hq : c'.trailQuest t = c.trailQuest t := by
    rw [trailQuest, trailQuest]
    cases t.viewer with
    | none => rfl
    | some user => simp only [h.foreignBoundary]
  rw [breadcrumb_eq, breadcrumb_eq, hq, h.shortestPath? (c.plain_trailQuest t)]

/-! ## The check before a new membership -/

theorem climb? (h : SameAbove c c') (id : ItemId) (e : EdgeId) :
    c'.climb? id e = c.climb? id e := by
  rw [Cabinet.climb?, Cabinet.climb?]
  cases he : c.edge? e with
  | none =>
    rw [h.edge?_of_none he]
    rfl
  | some edge =>
    obtain ⟨edge', he', hkey⟩ := h.edge?_of_some he
    have hitem : edge'.item = edge.item := (congrArg Membership.item hkey :)
    have hup : edge'.container = edge.container := (congrArg Membership.container hkey :)
    simp only [he', Option.bind_eq_bind, Option.bind_some, hitem, hup, h.contains]

theorem above? (h : SameAbove c c') (id : ItemId) : c'.above? id = c.above? id := by
  have hc : c'.climb? id = c.climb? id := funext (h.climb? id)
  rw [Cabinet.above?, Cabinet.above?, hc]
  cases hi : c.item? id with
  | none => rw [h.item?_of_none hi]
  | some i =>
    obtain ⟨i', hi', hu⟩ := h.item?_of_some hi
    have hl : i'.parentEdges = i.parentEdges := (congrArg Item.parentEdges hu :)
    simp only [hi', Option.bind_eq_bind, Option.bind_some, hl]

theorem checkCycle (h : SameAbove c c') (parent child : ItemId) :
    c'.checkCycle parent child = c.checkCycle parent child := by
  have hn : c'.prospectiveAbove? parent child = c.prospectiveAbove? parent child := by
    funext id
    rw [Cabinet.prospectiveAbove?, Cabinet.prospectiveAbove?, h.above?]
  rw [Cabinet.checkCycle, Cabinet.checkCycle, hn, h.keys]

end SameAbove

end Cabinet

end Filing
