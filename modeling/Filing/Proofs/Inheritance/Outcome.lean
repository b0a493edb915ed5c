import Filing.Proofs.Inheritance.Completeness

/-!
# What the flow of grants comes to

Which grants an item has after a merge or a retraction, told without the order in which items were
visited.  Both visit containers first, so an item is visited when the items above it have the grants
that they keep.

* `Sound.on_mergeDown`: **after a merge an item has what it had, and what the items that pass on to
  it now offer**; the item that was added has also what its container offered.
* `Sound.on_retractDown`: **after a retraction an item has what it had, less those candidates that
  no container of it has now**.  `Sound.on_remove` tells this of the whole removal.

Since no item lies above itself, either statement leaves no choice of the grants
(`Sound.holds_induction`).
-/

namespace Filing

open Cabinet Relation

variable {c c' : Cabinet}

namespace Cabinet

/-! ## Having and offering -/

/-- The item has the grant. -/
def Has (c : Cabinet) (id : ItemId) (g : Grant) : Prop := ∃ i, c.item? id = some i ∧ g ∈ i.access

/-- The item passes the grant on to its members. -/
def Offers (c : Cabinet) (id : ItemId) (g : Grant) : Prop :=
  ∃ i, c.item? id = some i ∧ g ∈ c.passedOn i

variable {id x y : ItemId} {i : Item} {g : Grant}

theorem has_iff (hi : c.item? id = some i) : c.Has id g ↔ g ∈ i.access := by
  simp [Has, hi]

theorem has_iff_any : c.Has id g ↔ (c.item? id).any (fun i => decide (g ∈ i.access)) = true := by
  simp [Has, any_item?_iff]

theorem offers_iff (hi : c.item? id = some i) : c.Offers id g ↔ g ∈ c.passedOn i := by
  simp [Offers, hi]

theorem has_congr (h : (c'.item? id).map Item.access = (c.item? id).map Item.access) :
    c'.Has id g ↔ c.Has id g := by
  have hmap : ∀ d : Cabinet, d.Has id g ↔ ∃ a, (d.item? id).map Item.access = some a ∧ g ∈ a := by
    intro d
    simp [Has, Option.map_eq_some_iff]
  rw [hmap, hmap, h]

theorem offers_congr (hs : c'.settings = c.settings)
    (hk : (c'.item? id).map Item.kind = (c.item? id).map Item.kind)
    (hg : ∀ g, c'.Has id g ↔ c.Has id g) : c'.Offers id g ↔ c.Offers id g := by
  cases hi : c.item? id with
  | none =>
    rw [hi, Option.map_none, Option.map_eq_none_iff] at hk
    simp [Offers, hi, hk]
  | some i =>
    rw [hi, Option.map_some] at hk
    obtain ⟨i', hi', hkind⟩ := Option.map_eq_some_iff.mp hk
    have hgi : g ∈ i'.access ↔ g ∈ i.access := by
      rw [← has_iff hi', ← has_iff hi, hg]
    rw [offers_iff hi, offers_iff hi', mem_passedOn_iff, mem_passedOn_iff, hgi, hkind, hs]

theorem has_setAccess {a : AccessList} (hx : c.item? x = some i) :
    (c.setAccess x a).Has y g ↔ if y = x then g ∈ a else c.Has y g := by
  unfold Has
  rw [item?_setAccess]
  by_cases hy : y = x
  · subst hy
    simp [hx]
  · simp [hy]

theorem Regranted.offers_iff (h : c.Regranted c') (hg : ∀ g, c'.Has id g ↔ c.Has id g) :
    c'.Offers id g ↔ c.Offers id g :=
  offers_congr h.retouched.settings (h.map_item? (fun _ => rfl) id) hg

end Cabinet

/-! ## Visits that pass on -/

theorem not_holds_first {x : ItemId} {rest : List ItemId} (hs : c.Sound)
    (hl : (x :: rest).Pairwise fun a b => a ∉ c.children b) {p : ItemId} (hp : p ∈ x :: rest) :
    ¬c.Holds p x := by
  intro hpx
  rcases List.mem_cons.mp hp with rfl | hp
  · exact hs.acyclic p (.single hpx)
  · exact (List.pairwise_cons.mp hl).1 p hp (hs.mem_children_iff.mpr hpx)

section PassOn

variable {top x y : ItemId} {reach : Reach} {k k' : Item} {pending : Pending} {g : Grant}

theorem brings_passOn (hs : c.Sound) (hk : c.item? x = some k)
    (hc : k'.isContainer = k.isContainer) (hy : y ≠ x) :
    (c.passOn top reach x k' pending).Brings y g ↔ pending.Brings y g ∨
      (reach = .subtree ∨ x = top) ∧ c.Holds x y ∧ g ∈ c.passedOn k' := by
  rw [passOn]
  split
  · next h =>
    rw [Pending.brings_foldl, Pending.brings_erase, hs.mem_children_iff]
    simp only [hy, ne_eq, not_false_iff, true_and, h.2]
  · next h =>
    rw [Pending.brings_erase]
    simp only [hy, ne_eq, not_false_iff, true_and]
    refine (or_iff_left ?_).symm
    rintro ⟨hpass, hxy, _⟩
    exact h ⟨hc.trans (hs.isContainer hxy hk), hpass⟩

theorem mem_keys_passOn (hs : c.Sound) (hk : c.item? x = some k)
    (hc : k'.isContainer = k.isContainer) (hy : y ≠ x) :
    y ∈ (c.passOn top reach x k' pending).keys ↔ y ∈ pending.keys ∨
      (reach = .subtree ∨ x = top) ∧ c.Holds x y := by
  have herase : y ∈ (pending.erase x).keys ↔ y ∈ pending.keys := by
    rw [SortedMap.mem_keys_iff, SortedMap.mem_keys_iff, SortedMap.find?_erase, if_neg hy]
  rw [passOn]
  split
  · next h =>
    rw [Pending.mem_keys_foldl, herase, hs.mem_children_iff]
    simp only [h.2, true_and]
  · next h =>
    rw [herase]
    refine (or_iff_left ?_).symm
    rintro ⟨hpass, hxy⟩
    exact h ⟨hc.trans (hs.isContainer hxy hk), hpass⟩

end PassOn

/-- **A visit, containers first**: every item that is visited gets what is on its way to it and what
the visited items that pass on to it offer in the end.  Something must be on its way to an item, or
it must be a member of one that passes on, since others are passed by. -/
theorem pour_spec {top : ItemId} {reach : Reach} {l : List ItemId} {pending : Pending}
    (hs : c.Sound) (hn : l.Nodup) (hl : l.Pairwise fun a b => a ∉ c.children b)
    (hstored : ∀ x ∈ l, ∃ i, c.item? x = some i)
    (hmet : ∀ x ∈ l, x ∈ pending.keys ∨
      ∃ p ∈ l, (reach = .subtree ∨ p = top) ∧ c.Holds p x) :
    ∃ c', (pour top reach l pending).on c = (.ok (), c') ∧ ∀ y g, c'.Has y g ↔
      c.Has y g ∨ y ∈ l ∧ (pending.Brings y g ∨
        ∃ p ∈ l, (reach = .subtree ∨ p = top) ∧ c.Holds p y ∧ c'.Offers p g) := by
  induction l generalizing c pending with
  | nil => exact ⟨c, rfl, by simp⟩
  | cons x rest ih =>
    have hfirst := fun p => not_holds_first hs hl (p := p)
    obtain ⟨hxr, hnr⟩ := List.nodup_cons.mp hn
    -- no container of the first item is visited, so something is on its way to the item
    have hkey : x ∈ pending.keys := by
      rcases hmet x List.mem_cons_self with hkey | ⟨p, hp, _, hpx⟩
      · exact hkey
      · exact absurd hpx (hfirst p hp)
    obtain ⟨grants, hgrants⟩ := SortedMap.mem_keys_iff.mp hkey
    obtain ⟨k, hk⟩ := hstored x List.mem_cons_self
    let k' : Item := { k with access := k.access.union grants }
    let c₁ := c.setAccess x k'.access
    have hcont : k'.isContainer = k.isContainer := rfl
    have hr : c.Retouched c₁ := .setAccess c x k'.access
    have hk' : c₁.item? x = some k' := by
      rw [item?_setAccess, if_pos rfl, hk]
      rfl
    have hl₁ : rest.Pairwise fun a b => a ∉ c₁.children b := by
      rw [show c₁.children = c.children from funext hr.children]
      exact (List.pairwise_cons.mp hl).2
    have hstored₁ : ∀ y ∈ rest, ∃ i, c₁.item? y = some i := by
      intro y hy
      obtain ⟨i, hi⟩ := hstored y (List.mem_cons_of_mem _ hy)
      obtain ⟨i', hi', _⟩ := hr.item_after hi
      exact ⟨i', hi'⟩
    have hmet₁ : ∀ y ∈ rest, y ∈ (c.passOn top reach x k' pending).keys ∨
        ∃ p ∈ rest, (reach = .subtree ∨ p = top) ∧ c₁.Holds p y := by
      intro y hy
      have hyx : y ≠ x := fun h => hxr (h ▸ hy)
      rw [mem_keys_passOn hs hk hcont hyx]
      rcases hmet y (List.mem_cons_of_mem _ hy) with hm | ⟨p, hp, hpass, hpy⟩
      · exact .inl (.inl hm)
      · rcases List.mem_cons.mp hp with rfl | hp
        · exact .inl (.inr ⟨hpass, hpy⟩)
        · exact .inr ⟨p, hp, hpass, hr.holds_iff.mpr hpy⟩
    obtain ⟨c', hc', hspec⟩ := ih (hr.sound hs) hnr hl₁ hstored₁ hmet₁
    refine ⟨c', (on_pour_of_some hgrants hk).trans hc', fun y g => ?_⟩
    -- what the first item offers is settled when it has been visited
    have hoffers : c'.Offers x g ↔ g ∈ c.passedOn k' := by
      have hgr := regranted_pour top reach rest (c.passOn top reach x k' pending) c₁
      rw [hc'] at hgr
      rw [hgr.offers_iff fun g => (hspec x g).trans (or_iff_left fun h => hxr h.1)]
      exact Cabinet.offers_iff hk'
    rw [hspec, has_setAccess hk]
    by_cases hy : y = x
    · subst hy
      have hpend : pending.Brings y g ↔ g ∈ grants := by simp [Pending.Brings, hgrants]
      have hnone : ¬∃ p ∈ y :: rest,
          (reach = .subtree ∨ p = top) ∧ c.Holds p y ∧ c'.Offers p g := by
        rintro ⟨p, hp, _, hpy, _⟩
        exact hfirst p hp hpy
      rw [if_pos rfl, SortedSet.mem_union, has_iff hk, hpend]
      simp only [hxr, false_and, or_false, hnone, List.mem_cons_self, true_and]
    · rw [if_neg hy, brings_passOn hs hk hcont hy, ← hoffers]
      simp only [List.mem_cons, hy, false_or, exists_eq_or_imp, hr.holds_iff, or_assoc]

/-! ## Merging -/

namespace Cabinet

/-- The items below `top` that pass on to their members. -/
def Feeds (c : Cabinet) (top : ItemId) : Reach → ItemId → Prop
  | .subtree, p => ReflTransGen c.Holds top p
  | .oneLevel, p => p = top

theorem feeds_iff {top p : ItemId} {reach : Reach} :
    c.Feeds top reach p ↔ c.Within top reach p ∧ (reach = .subtree ∨ p = top) := by
  cases reach with
  | subtree => simp [Feeds, Within]
  | oneLevel =>
    simp only [Feeds, Within, reduceCtorEq, false_or]
    exact ⟨fun h => ⟨.inl h, h⟩, (·.2)⟩

theorem Feeds.within {top p x : ItemId} {reach : Reach} (h : c.Feeds top reach p)
    (hpx : c.Holds p x) : c.Within top reach x := by
  cases reach with
  | subtree => exact ReflTransGen.tail h hpx
  | oneLevel =>
    have hp : p = top := h
    exact .inr (hp ▸ hpx)

theorem Within.fed {top x : ItemId} {reach : Reach} (h : c.Within top reach x) (hne : x ≠ top) :
    ∃ p, c.Feeds top reach p ∧ c.Holds p x := by
  cases reach with
  | subtree =>
    rcases ReflTransGen.cases_tail h with heq | ⟨p, hp, hpx⟩
    · exact absurd heq hne
    · exact ⟨p, hp, hpx⟩
  | oneLevel => exact ⟨top, rfl, h.resolve_left hne⟩

namespace Sound

variable {parent child : ItemId} {i j : Item}

/-- **After a merge** an item has what it had, and what the items that pass on to it now offer. -/
theorem on_mergeDown (hs : c.Sound) (hp : c.item? parent = some i)
    (hc : c.item? child = some j) (reach : Reach) :
    ∃ c', (mergeDown parent child reach).on c = (.ok (), c') ∧ c.Regranted c' ∧
      ∀ y g, c'.Has y g ↔ c.Has y g ∨ y = child ∧ c.Offers parent g ∨
        ∃ p, c.Feeds child reach p ∧ c.Holds p y ∧ c'.Offers p g := by
  obtain ⟨hperm, hpw⟩ := hs.inheritanceOrder_spec child reach
  have hmem : ∀ x, x ∈ c.inheritanceOrder child reach ↔ c.Within child reach x := fun x =>
    hs.mem_inheritanceOrder_iff
  have hkeys : child ∈ (SortedMap.empty.insert child (c.passedOn i) : Pending).keys := by
    rw [SortedMap.mem_keys_iff, SortedMap.find?_insert, if_pos rfl]
    exact ⟨_, rfl⟩
  -- below the first one, each item has a visited container that passes on to it
  have hmet : ∀ x ∈ c.inheritanceOrder child reach,
      x ∈ (SortedMap.empty.insert child (c.passedOn i) : Pending).keys ∨
        ∃ p ∈ c.inheritanceOrder child reach, (reach = .subtree ∨ p = child) ∧ c.Holds p x := by
    intro x hx
    by_cases hne : x = child
    · exact .inl (hne ▸ hkeys)
    · obtain ⟨p, hpf, hpx⟩ := ((hmem x).mp hx).fed hne
      obtain ⟨hpw, hpass⟩ := feeds_iff.mp hpf
      exact .inr ⟨p, (hmem p).mpr hpw, hpass, hpx⟩
  obtain ⟨c', hc', hspec⟩ := pour_spec hs (hperm.nodup_iff.mpr (c.below_nodup child reach)) hpw
    (fun x hx => hs.stored_of_mem_inheritanceOrder ⟨j, hc⟩ hx) hmet
  have hon := (Filing.on_mergeDown hp).trans hc'
  have hr := regranted_mergeDown parent child reach c
  rw [hon] at hr
  refine ⟨c', hon, hr, fun y g => ?_⟩
  have hbrings : Pending.Brings (SortedMap.empty.insert child (c.passedOn i)) y g ↔
      y = child ∧ c.Offers parent g := by
    simp only [offers_iff hp, Pending.Brings, SortedMap.find?_insert]
    by_cases hy : y = child <;> simp [hy]
  rw [hspec, hbrings]
  refine or_congr_right ⟨?_, ?_⟩
  · rintro ⟨hy, h | ⟨p, hpl, hpass, hpy, hg⟩⟩
    · exact .inl h
    · exact .inr ⟨p, feeds_iff.mpr ⟨(hmem p).mp hpl, hpass⟩, hpy, hg⟩
  · rintro (⟨rfl, hg⟩ | ⟨p, hpf, hpy, hg⟩)
    · exact ⟨hs.mem_inheritanceOrder_self y reach, .inl ⟨rfl, hg⟩⟩
    · obtain ⟨hpw, hpass⟩ := feeds_iff.mp hpf
      exact ⟨(hmem y).mpr (hpf.within hpy), .inr ⟨p, (hmem p).mpr hpw, hpass, hpy, hg⟩⟩

theorem on_mergeDown_of_missing (hs : c.Sound) (hp : c.item? parent = some i)
    (hc : c.item? child = none) {reach : Reach} :
    (mergeDown parent child reach).on c = (.error (.itemNotFound child), c) := by
  have hnone : ∀ x, ¬c.Holds child x := fun x hx => by
    obtain ⟨k, hk⟩ := hs.container_stored hx
    rw [hc] at hk
    cases hk
  have honly : ∀ x ∈ c.inheritanceOrder child reach, x = child := by
    intro x hx
    by_contra hne
    obtain ⟨p, hpf, hpx⟩ := (hs.mem_inheritanceOrder_iff.mp hx).fed hne
    have hpc : p = child := by
      cases reach with
      | oneLevel => exact hpf
      | subtree =>
        rcases ReflTransGen.cases_head hpf with heq | ⟨y, hy, _⟩
        · exact heq.symm
        · exact absurd hy (hnone y)
    exact hnone x (hpc ▸ hpx)
  rw [Filing.on_mergeDown hp]
  cases hl : c.inheritanceOrder child reach with
  | nil =>
    have := hs.mem_inheritanceOrder_self child reach
    rw [hl] at this
    cases this
  | cons x rest =>
    obtain rfl : x = child := honly x (hl ▸ List.mem_cons_self)
    have hpending : (SortedMap.empty.insert x (c.passedOn i)).find? x = some (c.passedOn i) := by
      rw [SortedMap.find?_insert, if_pos rfl]
    exact on_pour_of_missing hpending hc

end Sound

end Cabinet

/-- No grant is lost, and whatever an item gains a container of it offers. -/
structure Cabinet.Inherits (c c' : Cabinet) : Prop where
  kept : ∀ {y g}, c.Has y g → c'.Has y g
  gained : ∀ {y g}, c'.Has y g → c.Has y g ∨ ∃ p, c'.Holds p y ∧ c'.Offers p g

theorem Cabinet.Inherits.refl (c : Cabinet) : Inherits c c := ⟨id, .inl⟩

theorem Cabinet.Inherits.congr {d : Cabinet} (h : Inherits c c')
    (hd : ∀ id, (c.item? id).map Item.access = (d.item? id).map Item.access) : Inherits d c' where
  kept hy := h.kept ((has_congr (hd _)).mpr hy)
  gained hy := (h.gained hy).imp_left (has_congr (hd _)).mp

theorem Cabinet.Regranted.offers (h : c.Regranted c') {id : ItemId} {g : Grant}
    (hkept : c.Has id g → c'.Has id g) (ho : c.Offers id g) : c'.Offers id g := by
  obtain ⟨i, hi, hg⟩ := ho
  obtain ⟨a, hi'⟩ := h.item?_of_some hi
  obtain ⟨hga, hrest⟩ := mem_passedOn_iff.mp hg
  refine ⟨_, hi', mem_passedOn_iff.mpr ⟨(has_iff hi').mp (hkept ⟨i, hi, hga⟩), ?_⟩⟩
  rwa [h.retouched.settings]

/-- **What follows an addition does not fail** where both ends are stored, and all that is gained
comes from containers. -/
theorem Propagation.on_onAdd {parent child : ItemId} {i j : Item} (p : Propagation) (hs : c.Sound)
    (hp : c.item? parent = some i) (hc : c.item? child = some j) (hh : c.Holds parent child) :
    ∃ c', (p.onAdd parent child).on c = (.ok (), c') ∧ c.Regranted c' ∧ Inherits c c' := by
  have hmerge : ∀ reach, ∃ c', (mergeDown parent child reach).on c = (.ok (), c') ∧
      c.Regranted c' ∧ Inherits c c' := fun reach => by
    obtain ⟨c', hon, hr, hspec⟩ := hs.on_mergeDown hp hc reach
    have hkept : ∀ {y g}, c.Has y g → c'.Has y g := fun hy => (hspec _ _).mpr (.inl hy)
    refine ⟨c', hon, hr, hkept, fun {y g} hy => ?_⟩
    rcases (hspec y g).mp hy with hold | ⟨rfl, ho⟩ | ⟨q, _, hqy, ho⟩
    · exact .inl hold
    · exact .inr ⟨parent, hr.retouched.holds_iff.mpr hh, hr.offers hkept ho⟩
    · exact .inr ⟨q, hr.retouched.holds_iff.mpr hqy, ho⟩
  cases p with
  | null => exact ⟨c, rfl, .refl c, .refl c⟩
  | inherit => exact hmerge .subtree
  | share => exact hmerge .oneLevel
  | notFromContainers => exact hmerge .subtree

/-! ## Retracting -/

/-- **A visit that retracts, containers first**: an item that is visited keeps those candidates that
a container of it has in the end. -/
theorem drain_spec (candidates : AccessList) {l : List ItemId} (hs : c.Sound) (hn : l.Nodup)
    (hl : l.Pairwise fun a b => a ∉ c.children b) (hstored : ∀ x ∈ l, ∃ i, c.item? x = some i) :
    ∃ c', (drain candidates l).on c = (.ok (), c') ∧ ∀ y g, c'.Has y g ↔
      c.Has y g ∧ (y ∈ l → g ∈ candidates → ∃ p, c.Holds p y ∧ c'.Has p g) := by
  induction l generalizing c with
  | nil => exact ⟨c, rfl, by simp⟩
  | cons x rest ih =>
    have hfirst := fun p => not_holds_first hs hl (p := p)
    obtain ⟨hxr, hnr⟩ := List.nodup_cons.mp hn
    obtain ⟨k, hk⟩ := hstored x List.mem_cons_self
    have hcontainers : ∀ p ∈ c.parents x, ∃ i, c.item? p = some i := fun p hp =>
      hs.container_stored (hs.mem_parents_iff.mp hp)
    obtain ⟨supplied, hsup, hmem⟩ := grantsOf_eq_ok hcontainers
    -- the first item keeps those candidates that a container of it has
    obtain ⟨c₁, hc₁, hr, hhas⟩ : ∃ c₁, (drain candidates (x :: rest)).on c =
        (drain candidates rest).on c₁ ∧ c.Retouched c₁ ∧ ∀ y g, c₁.Has y g ↔
          c.Has y g ∧ (y = x → g ∉ candidates.diff supplied) := by
      refine ⟨_, on_drain hsup hk, ?_, fun y g => ?_⟩
      · split
        · exact .refl c
        · exact .setAccess c x _
      · split
        · next he => simp [SortedSet.not_mem_of_isEmpty he]
        · rw [has_setAccess hk]
          by_cases hy : y = x
          · simp [hy, has_iff hk]
          · simp [hy]
    obtain ⟨c', hc', hspec⟩ := ih (hr.sound hs) hnr
      (by
        rw [show c₁.children = c.children from funext hr.children]
        exact (List.pairwise_cons.mp hl).2)
      fun y hy => by
        obtain ⟨i, hi⟩ := hstored y (List.mem_cons_of_mem _ hy)
        obtain ⟨i', hi', _⟩ := hr.item_after hi
        exact ⟨i', hi'⟩
    refine ⟨c', hc₁.trans hc', fun y g => ?_⟩
    rw [hspec, hhas]
    by_cases hy : y = x
    · subst hy
      -- the grants of its containers are not touched by the rest of the visit
      have habove : ∀ p, c.Holds p y → (c'.Has p g ↔ c.Has p g) := by
        intro p hpy
        obtain ⟨hpx, hpr⟩ : p ≠ y ∧ p ∉ rest := by
          have := hfirst p
          simp only [List.mem_cons] at this
          tauto
        rw [hspec, hhas]
        simp only [hpx, hpr, false_implies, and_true]
      have hsupplied : g ∈ supplied ↔ ∃ p, c.Holds p y ∧ c'.Has p g := by
        rw [hmem]
        refine exists_congr fun p => ?_
        rw [hs.mem_parents_iff]
        exact and_congr_right fun hpy => (habove p hpy).symm
      simp only [hxr, false_implies, and_true, true_implies, List.mem_cons_self, SortedSet.mem_diff,
        hsupplied, not_and, not_not]
    · simp only [hy, false_implies, and_true, List.mem_cons, false_or, hr.holds_iff]

namespace Cabinet

/-- What is retracted after the removal of one item from another. -/
def retractable (above below : Item) : AccessList :=
  AccessList.withoutPublic (above.access.inter below.access)

variable {parent child : ItemId} {i j : Item}

theorem mem_retractable {g : Grant} :
    g ∈ retractable i j ↔ g ∈ i.access ∧ g ∈ j.access ∧ g.isPublic = false := by
  rw [retractable, AccessList.withoutPublic, SortedSet.mem_filter, SortedSet.mem_inter, and_assoc,
    Bool.not_eq_true']

/-- **After a retraction** an item has what it had, less those candidates that no container of it
has now. -/
theorem Sound.on_retractDown (hs : c.Sound) (hp : c.item? parent = some i)
    (hc : c.item? child = some j) (reach : Reach) :
    ∃ c', (retractDown parent child reach).on c = (.ok (), c') ∧ c.Regranted c' ∧
      ∀ y g, c'.Has y g ↔ c.Has y g ∧ (c.Within child reach y → g ∈ retractable i j →
        ∃ p, c.Holds p y ∧ c'.Has p g) := by
  have hon : (retractDown parent child reach).on c =
      if (retractable i j).isEmpty then (.ok (), c)
      else (drain (retractable i j) (c.inheritanceOrder child reach)).on c := by
    unfold retractDown
    simp only [Edit.on_bind, Edit.on_get, Edit.on_liftM, item_of_some hp, item_of_some hc]
    rw [retractable]
    split <;> rfl
  rw [hon]
  split
  · next he =>
    refine ⟨c, rfl, .refl c, fun y g => ?_⟩
    simp [SortedSet.not_mem_of_isEmpty he]
  · obtain ⟨hperm, hpw⟩ := hs.inheritanceOrder_spec child reach
    obtain ⟨c', hc', hspec⟩ := drain_spec (retractable i j) hs
      (hperm.nodup_iff.mpr (c.below_nodup child reach)) hpw
      fun x hx => hs.stored_of_mem_inheritanceOrder ⟨j, hc⟩ hx
    have hr := regranted_drain (retractable i j) (c.inheritanceOrder child reach) c
    rw [hc'] at hr
    refine ⟨c', hc', hr, fun y g => ?_⟩
    rw [hspec, hs.mem_inheritanceOrder_iff]

/-- What a removal of `child` may take grants from. -/
def Affected (c : Cabinet) (child : ItemId) : Propagation → ItemId → Prop
  | .inherit, x => c.Within child .subtree x
  | .share, x => c.Within child .oneLevel x
  | .notFromContainers, x =>
    (∃ i, c.item? child = some i ∧ i.isDocument = true) ∧ c.Within child .subtree x
  | .null, _ => False

end Cabinet

/-- **What follows a removal does not fail** where both ends are stored, and takes from what is
affected those private grants of both that no container supplies. -/
theorem Propagation.on_onRemove {parent child : ItemId} {i j : Item} (p : Propagation)
    (hs : c.Sound) (hp : c.item? parent = some i) (hc : c.item? child = some j) :
    ∃ c', (p.onRemove parent child).on c = (.ok (), c') ∧ c.Regranted c' ∧
      ∀ y g, c'.Has y g ↔ c.Has y g ∧ (c.Affected child p y → g ∈ retractable i j →
        ∃ q, c.Holds q y ∧ c'.Has q g) := by
  cases p with
  | null => exact ⟨c, rfl, .refl c, by simp [Affected]⟩
  | inherit => exact hs.on_retractDown hp hc .subtree
  | share => exact hs.on_retractDown hp hc .oneLevel
  | notFromContainers =>
    have hon : (Propagation.notFromContainers.onRemove parent child).on c =
        if j.isDocument then (retractDown parent child .subtree).on c else (.ok (), c) := by
      unfold onRemove
      simp only [Edit.on_bind, Edit.on_get, Edit.on_liftM, item_of_some hc]
      split <;> rfl
    rw [hon]
    split
    · next hd => simpa [Affected, hc, hd] using hs.on_retractDown hp hc .subtree
    · next hd => exact ⟨c, rfl, .refl c, by simp [Affected, hc, hd]⟩

namespace Cabinet

variable {parent child x : ItemId}

/-! ## Removing -/

section Less

variable (hs : c.Sound) (hh : ∀ q x, c'.Holds q x ↔ c.Holds q x ∧ ¬(q = parent ∧ x = child))

include hs hh

/-- **What is below the member does not depend on the membership that goes.** -/
theorem Sound.within_iff (reach : Reach) : c'.Within child reach x ↔ c.Within child reach x := by
  have hstep : ∀ {q x}, ReflTransGen c.Holds child q → (c'.Holds q x ↔ c.Holds q x) := by
    intro q x hq
    refine (hh q x).trans (and_iff_left_of_imp fun hqx => ?_)
    -- otherwise the member would lie above its container
    rintro ⟨rfl, rfl⟩
    exact hs.acyclic _ (.tail' hq hqx)
  cases reach with
  | oneLevel => exact or_congr_right (hstep .refl)
  | subtree =>
    refine ⟨ReflTransGen.mono (fun q x h => ((hh q x).mp h).1) _ _, fun hx => ?_⟩
    induction hx with
    | refl => exact .refl
    | tail hq hqx ih => exact ih.tail ((hstep hq).mpr hqx)

theorem Sound.affected_iff
    (hd : (c'.item? child).map Item.isDocument = (c.item? child).map Item.isDocument)
    (p : Propagation) : c'.Affected child p x ↔ c.Affected child p x := by
  cases p with
  | null => exact .rfl
  | inherit => exact hs.within_iff hh .subtree
  | share => exact hs.within_iff hh .oneLevel
  | notFromContainers =>
    refine and_congr ?_ (hs.within_iff hh .subtree)
    simp only [← Option.map_eq_some_iff, hd]

end Less

theorem Sound.on_remove_of_not_holds (hs : c.Sound) (hh : ¬c.Holds parent child) (p : Propagation) :
    (remove parent child p).on c = (.ok false, c) := by
  refine on_remove_of_none (Option.eq_none_iff_forall_ne_some.mpr fun c' hunlink => hh ?_)
  obtain ⟨e, hu⟩ := unlinked_of_unlink? hunlink
  obtain ⟨edge, he, hkey⟩ := hs.index_iff.mp hu.named
  exact ⟨e, edge, he, congrArg Membership.container hkey, congrArg Membership.item hkey⟩

/-- **After a removal** the membership is gone, and an item has what it had, less those private
grants of the container and the member that no container of it has now, if it is affected. -/
theorem Sound.on_remove (hs : c.Sound) (hh : c.Holds parent child) (p : Propagation) :
    ∃ e c₁ c', c.unlink? ⟨child, parent⟩ = some c₁ ∧ c.Unlinked ⟨child, parent⟩ e c₁ ∧
      c₁.Regranted c' ∧ (remove parent child p).on c = (.ok true, c') ∧
      ∀ x g, c'.Has x g ↔ c.Has x g ∧ (c.Affected child p x → c.Has parent g →
        c.Has child g → g.isPublic = false → ∃ q, c'.Holds q x ∧ c'.Has q g) := by
  obtain ⟨e, edge, he, rfl, rfl⟩ := hh
  obtain ⟨c₁, hunlink, hu⟩ := hs.exists_unlinked (hs.index_iff.mpr ⟨edge, he, rfl⟩) he rfl
  obtain ⟨i, hi⟩ := hs.container_stored ⟨e, edge, he, rfl, rfl⟩
  obtain ⟨j, hj⟩ := hs.item_stored ⟨e, edge, he, rfl, rfl⟩
  obtain ⟨c', hretract, hr, hspec⟩ :=
    p.on_onRemove (hs.unlinked hu) (hu.item_after hi) (hu.item_after hj)
  refine ⟨e, c₁, c', hunlink, hu, hr, ?_, fun x g => ?_⟩
  · rw [on_remove_of_some hunlink]
    exact Edit.on_bind_of_ok hretract
  · have haffected : c₁.Affected edge.item p x ↔ c.Affected edge.item p x :=
      hs.affected_iff (fun _ _ => hu.holds_iff hs.toIndexed)
        (map_item?_of_map hu.item? (fun _ _ => rfl) _) p
    rw [hspec, has_congr (map_item?_of_map hu.item? (fun _ _ => rfl) x), mem_retractable,
      has_iff hi, has_iff hj, haffected]
    simp only [hr.retouched.holds_iff, and_imp]

theorem Sound.on_remove_inherit (hs : c.Sound) (hh : c.Holds parent child) :
    ∃ c', (remove parent child .inherit).on c = (.ok true, c') ∧
      (∀ p x, c'.Holds p x ↔ c.Holds p x ∧ ¬(p = parent ∧ x = child)) ∧
      ∀ x g, c'.Has x g ↔ c.Has x g ∧ (ReflTransGen c'.Holds child x → c.Has parent g →
        c.Has child g → g.isPublic = false → ∃ p, c'.Holds p x ∧ c'.Has p g) := by
  obtain ⟨e, c₁, c', _, hu, hr, hon, hspec⟩ := hs.on_remove hh .inherit
  have hholds : ∀ p x, c'.Holds p x ↔ c.Holds p x ∧ ¬(p = parent ∧ x = child) := fun p x =>
    hr.retouched.holds_iff.trans (hu.holds_iff hs.toIndexed)
  refine ⟨c', hon, hholds, fun x g => ?_⟩
  have hwithin : c.Affected child .inherit x ↔ ReflTransGen c'.Holds child x :=
    (hs.within_iff hholds .subtree).symm
  rw [hspec, hwithin]

end Cabinet

end Filing
