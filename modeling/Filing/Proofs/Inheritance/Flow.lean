import Filing.Inheritance.Flow
import Filing.Proofs.Cabinet.Outline
import Filing.Proofs.Edit

/-!
# What the flow of grants does at one item

Merging and retracting visit a list of items.  The lemmas about `pour` and `drain` tell what happens
at its first item, and what is visited afterwards, so that a statement about a visit of a list goes
by induction on it.

`regranted_onAdd`, `regranted_onRemove`: **whatever the propagation, nothing changes but the grants
on items** (`Regranted`), also where the flow stops with a failure.
-/

namespace Filing

variable {c c' c'' : Cabinet} {id : ItemId} {i : Item}

/-- An item without its grants. -/
def Item.ungranted (i : Item) : Item := { i with access := ∅ }

namespace Cabinet

theorem item_of_some (h : c.item? id = some i) : c.item id = .ok i := by
  rw [item, h]

theorem item_of_none (h : c.item? id = none) : c.item id = .error (.itemNotFound id) := by
  rw [item, h]

theorem item?_setAccess (a : AccessList) (j : ItemId) :
    (c.setAccess id a).item? j =
      if j = id then (c.item? j).map ({ · with access := a }) else c.item? j :=
  item?_modifyItem c id j _

theorem grantsOf_eq_ok {ids : List ItemId} (h : ∀ id ∈ ids, ∃ i, c.item? id = some i) :
    ∃ a, c.grantsOf ids = .ok a ∧
      ∀ g, g ∈ a ↔ ∃ id ∈ ids, ∃ i, c.item? id = some i ∧ g ∈ i.access := by
  suffices hs : ∀ a₀ : AccessList, ∃ a, ids.foldlM (fun a id => do
      let i ← c.item id
      return a.union i.access) a₀ = .ok a ∧
      ∀ g, g ∈ a ↔ g ∈ a₀ ∨ ∃ id ∈ ids, ∃ i, c.item? id = some i ∧ g ∈ i.access by
    obtain ⟨a, ha, hg⟩ := hs ∅
    refine ⟨a, ha, fun g => ?_⟩
    rw [hg, or_iff_right (show g ∉ (∅ : AccessList) from SortedSet.not_mem_empty g)]
  induction ids with
  | nil => exact fun a₀ => ⟨a₀, rfl, by simp⟩
  | cons id ids ih =>
    intro a₀
    obtain ⟨i, hi⟩ := h id List.mem_cons_self
    obtain ⟨a, ha, hg⟩ := ih (fun id hm => h id (List.mem_cons_of_mem _ hm)) (a₀.union i.access)
    refine ⟨a, ?_, fun g => ?_⟩
    · rw [List.foldlM_cons, item_of_some hi]
      exact ha
    · rw [hg, SortedSet.mem_union]
      simp only [List.exists_mem_cons_iff, hi, Option.some.injEq, exists_eq_left']
      tauto

/-- The cabinets differ in the grants on items at most. -/
structure Regranted (c c' : Cabinet) : Prop where
  eq : c' = { c with items := c'.items }
  ungranted : ∀ id, (c'.item? id).map Item.ungranted = (c.item? id).map Item.ungranted

namespace Regranted

theorem refl (c : Cabinet) : Regranted c c := ⟨rfl, fun _ => rfl⟩

theorem trans (h : Regranted c c') (h' : Regranted c' c'') : Regranted c c'' where
  eq := by
    rw [h'.eq, h.eq]
  ungranted id := (h'.ungranted id).trans (h.ungranted id)

theorem setAccess (c : Cabinet) (id : ItemId) (a : AccessList) :
    Regranted c (c.setAccess id a) := by
  refine ⟨rfl, fun j => ?_⟩
  rw [item?_setAccess]
  split
  · cases c.item? j <;> rfl
  · rfl

theorem edges (h : Regranted c c') : c'.edges = c.edges := (congrArg Cabinet.edges h.eq :)

theorem generation (h : Regranted c c') : c'.generation = c.generation :=
  (congrArg Cabinet.generation h.eq :)

theorem item?_of_some (h : Regranted c c') (hi : c.item? id = some i) :
    ∃ a, c'.item? id = some { i with access := a } := by
  have := h.ungranted id
  rw [hi, Option.map_some] at this
  obtain ⟨i', hi', hun⟩ := Option.map_eq_some_iff.mp this
  refine ⟨i'.access, hi'.trans (congrArg some ?_)⟩
  show { i'.ungranted with access := i'.access } = _
  rw [hun]
  rfl

theorem map_item? {α : Type} {f : Item → α} (h : Regranted c c') (hf : ∀ i, f i.ungranted = f i)
    (id : ItemId) : (c'.item? id).map f = (c.item? id).map f := by
  have hc : f = f ∘ Item.ungranted := funext fun i => (hf i).symm
  rw [hc, ← Option.map_map, h.ungranted, Option.map_map]

theorem retouched (h : Regranted c c') : c.Retouched c' where
  settings := (congrArg Cabinet.settings h.eq :)
  epoch := (congrArg Cabinet.epoch h.eq :)
  edges := h.edges
  index := (congrArg Cabinet.index h.eq :)
  deferred := (congrArg Cabinet.deferred h.eq :)
  nextEdge := (congrArg Cabinet.nextEdge h.eq :)
  outline := h.map_item? fun _ => rfl

end Regranted

end Cabinet

/-! ## Pouring -/

section Pour

variable {top : ItemId} {reach : Reach} {rest : List ItemId} {pending : Pending}

theorem on_pour_of_none (h : pending.find? id = none) :
    (pour top reach (id :: rest) pending).on c = (pour top reach rest pending).on c := by
  rw [pour, h]

/-- What is on its way after an item got its share. -/
def Cabinet.passOn (c : Cabinet) (top : ItemId) (reach : Reach) (id : ItemId) (i : Item)
    (pending : Pending) : Pending :=
  if i.isContainer ∧ (reach = .subtree ∨ id = top) then
    (c.children id).foldl (·.add (c.passedOn i)) (pending.erase id)
  else
    pending.erase id

/-- **An item gets what is on its way to it, and passes on what it then holds.** -/
theorem on_pour_of_some {grants : AccessList} (h : pending.find? id = some grants)
    (hi : c.item? id = some i) :
    (pour top reach (id :: rest) pending).on c =
      (pour top reach rest (c.passOn top reach id { i with access := i.access.union grants }
        pending)).on (c.setAccess id (i.access.union grants)) := by
  rw [pour, h]
  simp only [Edit.on_bind, Edit.on_get, Edit.on_liftM, Cabinet.item_of_some hi, Edit.on_set]
  rw [Cabinet.passOn]
  split <;> rfl

theorem on_pour_of_missing {grants : AccessList} (h : pending.find? id = some grants)
    (hi : c.item? id = none) :
    (pour top reach (id :: rest) pending).on c = (.error (.itemNotFound id), c) := by
  rw [pour, h]
  simp only [Edit.on_bind, Edit.on_get, Edit.on_liftM, Cabinet.item_of_none hi]

end Pour

theorem regranted_pour (top : ItemId) (reach : Reach) (l : List ItemId) (pending : Pending)
    (c : Cabinet) : c.Regranted ((pour top reach l pending).on c).2 := by
  induction l generalizing pending c with
  | nil => exact .refl c
  | cons id rest ih =>
    cases h : pending.find? id with
    | none =>
      rw [on_pour_of_none h]
      exact ih pending c
    | some grants =>
      cases hi : c.item? id with
      | none =>
        rw [on_pour_of_missing h hi]
        exact .refl c
      | some i =>
        rw [on_pour_of_some h hi]
        exact (Cabinet.Regranted.setAccess c id _).trans (ih _ _)

theorem on_mergeDown {parent child : ItemId} {reach : Reach} (hi : c.item? parent = some i) :
    (mergeDown parent child reach).on c =
      (pour child reach (c.inheritanceOrder child reach)
        (SortedMap.empty.insert child (c.passedOn i))).on c := by
  unfold mergeDown
  simp only [Edit.on_bind, Edit.on_get, Edit.on_liftM, Cabinet.inheritable,
    Cabinet.item_of_some hi]
  rfl

theorem on_mergeDown_of_none {parent child : ItemId} {reach : Reach}
    (hi : c.item? parent = none) :
    (mergeDown parent child reach).on c = (.error (.itemNotFound parent), c) := by
  unfold mergeDown
  simp only [Edit.on_bind, Edit.on_get, Edit.on_liftM, Cabinet.inheritable,
    Cabinet.item_of_none hi]
  rfl

theorem regranted_mergeDown (parent child : ItemId) (reach : Reach) (c : Cabinet) :
    c.Regranted ((mergeDown parent child reach).on c).2 := by
  cases hi : c.item? parent with
  | none =>
    rw [on_mergeDown_of_none hi]
    exact .refl c
  | some i =>
    rw [on_mergeDown hi]
    exact regranted_pour ..

/-! ## Draining -/

section Drain

variable {candidates supplied : AccessList} {rest : List ItemId}

/-- **An item keeps what one of its containers holds, and loses the other candidates.** -/
theorem on_drain (h : c.grantsOf (c.parents id) = .ok supplied) (hi : c.item? id = some i) :
    (drain candidates (id :: rest)).on c =
      (drain candidates rest).on
        (if (candidates.diff supplied).isEmpty then c
        else c.setAccess id (i.access.diff (candidates.diff supplied))) := by
  rw [drain]
  simp only [Edit.on_bind, Edit.on_get, Edit.on_liftM, h]
  split
  · rfl
  · simp only [Edit.on_bind, Edit.on_liftM, Cabinet.item_of_some hi, Edit.on_set]

theorem on_drain_cases (candidates : AccessList) (id : ItemId) (rest : List ItemId) (c : Cabinet) :
    ((drain candidates (id :: rest)).on c).2 = c ∨
      (∃ supplied, c.grantsOf (c.parents id) = .ok supplied ∧
        (drain candidates (id :: rest)).on c = (drain candidates rest).on c) ∨
      ∃ supplied i, c.grantsOf (c.parents id) = .ok supplied ∧ c.item? id = some i ∧
        (drain candidates (id :: rest)).on c = (drain candidates rest).on
          (c.setAccess id (i.access.diff (candidates.diff supplied))) := by
  cases h : c.grantsOf (c.parents id) with
  | error x =>
    refine .inl ?_
    unfold drain
    simp only [Edit.on_bind, Edit.on_get, Edit.on_liftM, h]
  | ok supplied =>
    by_cases he : (candidates.diff supplied).isEmpty
    · refine .inr (.inl ⟨supplied, rfl, ?_⟩)
      rw [drain]
      simp only [Edit.on_bind, Edit.on_get, Edit.on_liftM, h, he, if_true]
    · cases hi : c.item? id with
      | none =>
        refine .inl ?_
        unfold drain
        simp only [Edit.on_bind, Edit.on_get, Edit.on_liftM, h, he, Cabinet.item_of_none hi]
        rfl
      | some i =>
        refine .inr (.inr ⟨supplied, i, rfl, rfl, ?_⟩)
        rw [on_drain h hi, if_neg he]

end Drain

theorem regranted_drain (candidates : AccessList) (l : List ItemId) (c : Cabinet) :
    c.Regranted ((drain candidates l).on c).2 := by
  induction l generalizing c with
  | nil => exact .refl c
  | cons id rest ih =>
    rcases on_drain_cases candidates id rest c with h | ⟨_, _, h⟩ | ⟨_, _, _, _, h⟩
    · rw [h]
      exact .refl c
    · rw [h]
      exact ih c
    · rw [h]
      exact (Cabinet.Regranted.setAccess c id _).trans (ih _)

theorem on_retractDown_of_none {parent child : ItemId} {reach : Reach}
    (hp : c.item? parent = none) :
    (retractDown parent child reach).on c = (.error (.itemNotFound parent), c) := by
  unfold retractDown
  simp only [Edit.on_bind, Edit.on_get, Edit.on_liftM, Cabinet.item_of_none hp]

theorem on_retractDown_of_missing {parent child : ItemId} {reach : Reach} {above : Item}
    (hp : c.item? parent = some above) (hc : c.item? child = none) :
    (retractDown parent child reach).on c = (.error (.itemNotFound child), c) := by
  unfold retractDown
  simp only [Edit.on_bind, Edit.on_get, Edit.on_liftM, Cabinet.item_of_some hp,
    Cabinet.item_of_none hc]

theorem on_retractDown_cases (parent child : ItemId) (reach : Reach) (c : Cabinet) :
    ((retractDown parent child reach).on c).2 = c ∨
      ∃ common l, (retractDown parent child reach).on c =
        (drain (AccessList.withoutPublic common) l).on c := by
  unfold retractDown
  simp only [Edit.on_bind, Edit.on_get, Edit.on_liftM]
  cases c.item parent with
  | error => exact .inl rfl
  | ok above =>
    cases c.item child with
    | error => exact .inl rfl
    | ok below =>
      dsimp only
      split
      · exact .inl rfl
      · exact .inr ⟨_, _, rfl⟩

theorem regranted_retractDown (parent child : ItemId) (reach : Reach) (c : Cabinet) :
    c.Regranted ((retractDown parent child reach).on c).2 := by
  rcases on_retractDown_cases parent child reach c with h | ⟨_, _, h⟩
  · rw [h]
    exact .refl c
  · rw [h]
    exact regranted_drain ..

/-! ## Propagation -/

namespace Propagation

variable (p : Propagation) (parent child : ItemId) (c : Cabinet)

theorem regranted_onAdd : c.Regranted ((p.onAdd parent child).on c).2 := by
  cases p with
  | null => exact .refl c
  | inherit | share | notFromContainers => exact regranted_mergeDown ..

theorem on_onRemove_cases :
    ((p.onRemove parent child).on c).2 = c ∨
      ∃ reach, (p.onRemove parent child).on c = (retractDown parent child reach).on c := by
  cases p with
  | null => exact .inl rfl
  | inherit => exact .inr ⟨.subtree, rfl⟩
  | share => exact .inr ⟨.oneLevel, rfl⟩
  | notFromContainers =>
    unfold onRemove
    simp only [Edit.on_bind, Edit.on_get, Edit.on_liftM]
    cases c.item child with
    | error => exact .inl rfl
    | ok i =>
      dsimp only
      split
      · exact .inr ⟨.subtree, rfl⟩
      · exact .inl rfl

theorem regranted_onRemove : c.Regranted ((p.onRemove parent child).on c).2 := by
  rcases p.on_onRemove_cases parent child c with h | ⟨reach, h⟩
  · rw [h]
    exact .refl c
  · rw [h]
    exact regranted_retractDown ..

theorem retouched_onAdd : c.Retouched ((p.onAdd parent child).on c).2 :=
  (p.regranted_onAdd parent child c).retouched

theorem retouched_onRemove : c.Retouched ((p.onRemove parent child).on c).2 :=
  (p.regranted_onRemove parent child c).retouched

end Propagation

end Filing
