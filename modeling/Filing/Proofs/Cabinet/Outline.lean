import Filing.Cabinet.Basic
import Filing.Inheritance.Order
import Filing.Proofs.Sorted.Map

/-!
# Changes that leave the structure as it is

Grants, deletion marks and the kinds of containers may change without any effect on which item is a
member of which.  What is left of an item without them is its outline (`Item.outline`), and a
cabinet is *retouched* when the outlines and everything beside the items stay the same
(`Retouched`).

* `Retouched.modifyItem`: a modification that keeps the outline of an item retouches the cabinet.
* `Retouched.parents`, `Retouched.children`, `Retouched.inheritanceOrder`: **whatever is asked of
  the memberships has the same answer afterwards**.
-/

namespace Filing

/-- An item without its grants, its deletion mark and the kind of container that it is. -/
def Item.outline (i : Item) : Item :=
  { i with
    kind := if i.isContainer then .container .folder else .document
    deleted := false
    access := ∅ }

namespace Item

variable {i j : Item}

theorem isContainer_outline (i : Item) : i.outline.isContainer = i.isContainer := by
  show ItemKind.isContainer (if i.isContainer then _ else _) = _
  cases h : i.isContainer <;> rfl

theorem id_eq_of_outline (h : i.outline = j.outline) : i.id = j.id :=
  show i.outline.id = j.outline.id by rw [h]

theorem parentEdges_eq_of_outline (h : i.outline = j.outline) : i.parentEdges = j.parentEdges :=
  show i.outline.parentEdges = j.outline.parentEdges by rw [h]

theorem childEdges_eq_of_outline (h : i.outline = j.outline) : i.childEdges = j.childEdges :=
  show i.outline.childEdges = j.outline.childEdges by rw [h]

theorem isContainer_eq_of_outline (h : i.outline = j.outline) :
    i.isContainer = j.isContainer := by
  rw [← isContainer_outline i, h, isContainer_outline]

end Item

namespace Cabinet

/-! ## Single modifications -/

section LookUps

variable (c : Cabinet) (id j : ItemId) (f : Item → Item) (e : EdgeId)

theorem item?_modifyItem :
    (c.modifyItem id f).item? j = if j = id then (c.item? j).map f else c.item? j :=
  SortedMap.find?_modify c.items id j f

theorem map_item?_modifyItem {α : Type} {F : Item → α} (hf : ∀ i, F (f i) = F i) :
    ((c.modifyItem id f).item? j).map F = (c.item? j).map F := by
  rw [item?_modifyItem]
  split
  · rw [Option.map_map]
    exact congrArg (Option.map · (c.item? j)) (funext hf)
  · rfl

theorem map_item?_of_map {c c' : Cabinet} {f : ItemId → Item → Item} {α : Type} {F : Item → α}
    (h : ∀ id, c'.item? id = (c.item? id).map (f id)) (hf : ∀ id i, F (f id i) = F i)
    (id : ItemId) : (c'.item? id).map F = (c.item? id).map F := by
  rw [h, Option.map_map]
  exact congrArg (Option.map · (c.item? id)) (funext (hf id))

@[simp] theorem edge?_modifyItem : (c.modifyItem id f).edge? e = c.edge? e := rfl

@[simp] theorem item?_bump : c.bump.item? j = c.item? j := rfl

@[simp] theorem edge?_bump : c.bump.edge? e = c.edge? e := rfl

end LookUps

/-- The memberships and the outlines of the items are the same. -/
structure Retouched (c c' : Cabinet) : Prop where
  settings : c'.settings = c.settings
  epoch : c'.epoch = c.epoch
  edges : c'.edges = c.edges
  index : c'.index = c.index
  deferred : c'.deferred = c.deferred
  nextEdge : c'.nextEdge = c.nextEdge
  outline : ∀ id, (c'.item? id).map Item.outline = (c.item? id).map Item.outline

namespace Retouched

variable {c c' c'' : Cabinet} {id : ItemId} {i : Item}

theorem refl (c : Cabinet) : Retouched c c := ⟨rfl, rfl, rfl, rfl, rfl, rfl, fun _ => rfl⟩

theorem symm (h : Retouched c c') : Retouched c' c :=
  ⟨h.settings.symm, h.epoch.symm, h.edges.symm, h.index.symm, h.deferred.symm, h.nextEdge.symm,
    fun id => (h.outline id).symm⟩

theorem trans (h : Retouched c c') (h' : Retouched c' c'') : Retouched c c'' :=
  ⟨h'.settings.trans h.settings, h'.epoch.trans h.epoch, h'.edges.trans h.edges,
    h'.index.trans h.index, h'.deferred.trans h.deferred, h'.nextEdge.trans h.nextEdge,
    fun id => (h'.outline id).trans (h.outline id)⟩

theorem bump (c : Cabinet) : Retouched c c.bump := ⟨rfl, rfl, rfl, rfl, rfl, rfl, fun _ => rfl⟩

theorem modifyItem (c : Cabinet) (id : ItemId) {f : Item → Item}
    (hf : ∀ i, (f i).outline = i.outline) : Retouched c (c.modifyItem id f) := by
  refine ⟨rfl, rfl, rfl, rfl, rfl, rfl, fun j => ?_⟩
  rw [item?_modifyItem]
  split
  · cases c.item? j with
    | none => rfl
    | some i => exact congrArg some (hf i)
  · rfl

theorem setAccess (c : Cabinet) (id : ItemId) (a : AccessList) : Retouched c (c.setAccess id a) :=
  modifyItem c id fun _ => rfl

/-! ## What stays the same -/

theorem edge? (h : Retouched c c') (e : EdgeId) : c'.edge? e = c.edge? e := by
  rw [Cabinet.edge?, h.edges]
  rfl

theorem item_before (h : Retouched c c') (hi : c'.item? id = some i) :
    ∃ j, c.item? id = some j ∧ j.outline = i.outline := by
  have := h.outline id
  rw [hi] at this
  exact Option.map_eq_some_iff.mp this.symm

theorem item_after (h : Retouched c c') (hi : c.item? id = some i) :
    ∃ j, c'.item? id = some j ∧ j.outline = i.outline := h.symm.item_before hi

theorem item?_eq_none_iff (h : Retouched c c') : c'.item? id = none ↔ c.item? id = none := by
  rw [← Option.map_eq_none_iff (f := Item.outline), h.outline, Option.map_eq_none_iff]

theorem match_item (h : Retouched c c') {α : Type} {f : Item → α} {a : α}
    (hf : ∀ i j : Item, i.outline = j.outline → f i = f j) (id : ItemId) :
    (match c'.item? id with | some i => f i | none => a) =
      match c.item? id with | some i => f i | none => a := by
  cases hi : c'.item? id with
  | none => rw [h.item?_eq_none_iff.mp hi]
  | some i =>
    obtain ⟨j, hj, ho⟩ := h.item_before hi
    rw [hj]
    exact hf i j ho.symm

theorem parentEdges (h : Retouched c c') (id : ItemId) : c'.parentEdges id = c.parentEdges id := by
  have he : c'.edge? = c.edge? := funext h.edge?
  rw [Cabinet.parentEdges, he]
  exact h.match_item (fun i j ho => by rw [Item.parentEdges_eq_of_outline ho]) id

theorem parents (h : Retouched c c') (id : ItemId) : c'.parents id = c.parents id := by
  rw [Cabinet.parents, h.parentEdges]
  rfl

theorem childEdges (h : Retouched c c') (id : ItemId) : c'.childEdges id = c.childEdges id := by
  have he : c'.edge? = c.edge? := funext h.edge?
  rw [Cabinet.childEdges, he, h.deferred]
  exact h.match_item (fun i j ho => by rw [Item.childEdges_eq_of_outline ho]) id

theorem children (h : Retouched c c') (id : ItemId) : c'.children id = c.children id := by
  rw [Cabinet.children, h.childEdges]
  rfl

theorem memberIds (h : Retouched c c') : c'.memberIds = c.memberIds := by
  rw [Cabinet.memberIds, h.edges]
  rfl

theorem inheritanceOrder (h : Retouched c c') (id : ItemId) (reach : Reach) :
    c'.inheritanceOrder id reach = c.inheritanceOrder id reach := by
  have hc : c'.children = c.children := funext h.children
  have hp : c'.parents = c.parents := funext h.parents
  have hb : c'.below id reach = c.below id reach := by
    cases reach <;> rw [Cabinet.below, Cabinet.below, hc, h.memberIds]
  rw [Cabinet.inheritanceOrder, Cabinet.inheritanceOrder, hb, hc, hp]

end Retouched

end Cabinet

end Filing
