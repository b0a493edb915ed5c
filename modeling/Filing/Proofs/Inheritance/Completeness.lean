import Filing.Proofs.Inheritance.Order
import Filing.Proofs.Run
import Mathlib

/-!
# Members hold what their containers pass on

A cabinet is *complete* when every member holds every grant that its container passes on
(`Complete`). Nothing checks this, but a run in which grants follow every membership keeps it.

* After an addition grants are on their way to the new member.  What a visited item passes on is on
  its way to members that are visited later, so nothing is left over when the visit ends
  (`pour_complete`).  The conversion of kinds before that only lessens what is passed on.
* A retraction takes from an item what none of its containers holds, so **retracting keeps a cabinet
  complete, in whatever order the items are visited** (`drain_complete`).

`inheriting_complete` puts the operations of such a run together, failing ones included.
-/

namespace Filing

open Cabinet

variable {c c' : Cabinet}

namespace Cabinet

theorem mem_passedOn_iff {i : Item} {g : Grant} :
    g ∈ c.passedOn i ↔ g ∈ i.access ∧ g.isPublic = false ∧
      (i.kind.isContainerThat ContainerKind.isSharedCollection = true →
        c.settings.isElevated g.principal = false) := by
  unfold passedOn
  split
  · next h => simp [AccessList.withoutPublic, AccessList.withoutPrincipals, h, and_assoc]
  · next h => simp [AccessList.withoutPublic, h]

/-- The item holds what the container passes on. -/
def PassedOn (c : Cabinet) (p id : ItemId) : Prop :=
  ∀ i j, c.item? p = some i → c.item? id = some j → ∀ g ∈ c.passedOn i, g ∈ j.access

/-- **Every member holds what its containers pass on.** -/
def Complete (c : Cabinet) : Prop := ∀ p id, c.Holds p id → c.PassedOn p id

theorem PassedOn.of_same {p id : ItemId} (h : c.PassedOn p id) (hs : c'.settings = c.settings)
    (hp : ∀ i', c'.item? p = some i' →
      ∃ i, c.item? p = some i ∧ i'.access = i.access ∧ i'.kind = i.kind)
    (hid : ∀ i', c'.item? id = some i' → ∃ i, c.item? id = some i ∧ i'.access = i.access) :
    c'.PassedOn p id := by
  intro i' j' hi' hj' g hg
  obtain ⟨i, hi, ha, hk⟩ := hp i' hi'
  obtain ⟨j, hj, hja⟩ := hid j' hj'
  rw [hja]
  apply h i j hi hj g
  rw [mem_passedOn_iff] at hg ⊢
  rwa [ha, hk, hs] at hg

theorem Complete.of_same (h : c.Complete) (hs : c'.settings = c.settings)
    (hh : ∀ p id, c'.Holds p id → c.Holds p id)
    (hi : ∀ p id, c'.Holds p id → ∀ x, x = p ∨ x = id → ∀ i', c'.item? x = some i' →
      ∃ i, c.item? x = some i ∧ i'.access = i.access ∧ i'.kind = i.kind) : c'.Complete := by
  intro p id hpid
  apply (h p id (hh p id hpid)).of_same hs (hi p id hpid p (.inl rfl))
  intro i' hi'
  obtain ⟨i, hi, ha, _⟩ := hi p id hpid id (.inr rfl) i' hi'
  exact ⟨i, hi, ha⟩

/-! ## Single changes -/

theorem Complete.unlinked (h : c.Complete) {key : Membership} {e : EdgeId}
    (hu : c.Unlinked key e c') : c'.Complete := by
  refine h.of_same hu.settings (fun _ _ => hu.holds_before) ?_
  intro p id _ x _ i' hi'
  obtain ⟨i, hi, rfl⟩ := hu.item_before hi'
  exact ⟨i, hi, rfl, rfl⟩

theorem Complete.flushDeferred (h : c.Complete) : c.flushDeferred.1.Complete := by
  refine h.of_same (by rw [flushDeferred_eq]) (fun _ _ => holds_flushDeferred.mp) ?_
  intro p id _ x _ i' hi'
  obtain ⟨i, hi, rfl⟩ := item_before_flush hi'
  exact ⟨i, hi, rfl, rfl⟩

theorem Complete.markEdge (h : c.Complete) (e : EdgeId) (deleted : Bool) (now : Timestamp) :
    (c.markEdge e deleted now).Complete :=
  h.of_same rfl (fun _ _ => holds_markEdge.mp) fun _ _ _ _ _ i' hi' => ⟨i', hi', rfl, rfl⟩

theorem Complete.insertItem (h : c.Complete) (hc : c.Coherent) {item : Item}
    (hn : c.item? item.id = none) : (c.insertItem item).Complete := by
  refine h.of_same rfl (fun _ _ hh => hh) ?_
  intro p id hh x hx i' hi'
  have hh : c.Holds p id := hh
  have hne : x ≠ item.id := by
    rintro rfl
    obtain ⟨i, hi⟩ : ∃ i, c.item? item.id = some i := by
      rcases hx with rfl | rfl
      · exact hc.container_stored hh
      · exact hc.item_stored hh
    rw [hn] at hi
    cases hi
  rw [item?_insertItem, if_neg hne] at hi'
  exact ⟨i', hi', rfl, rfl⟩

theorem Complete.eraseItem (h : c.Complete) (id : ItemId) : (c.eraseItem id).Complete :=
  h.of_same rfl (fun _ _ hh => hh) fun _ _ _ _ _ i' hi' => ⟨i', item_before_erase hi', rfl, rfl⟩

theorem Complete.modifyItem (h : c.Complete) (id : ItemId) {f : Item → Item}
    (hf : ∀ i, (f i).access = i.access ∧ (f i).kind = i.kind) : (c.modifyItem id f).Complete := by
  refine h.of_same rfl (fun _ _ hh => hh) ?_
  intro _ _ _ x _ i' hi'
  rw [item?_modifyItem] at hi'
  split at hi'
  · obtain ⟨i, hi, rfl⟩ := Option.map_eq_some_iff.mp hi'
    exact ⟨i, hi, hf i⟩
  · exact ⟨i', hi', rfl, rfl⟩

theorem PassedOn.share {p id x : ItemId} {kind : ContainerKind} {k : Item} (h : c.PassedOn p id)
    (hx : c.item? x = some k) (hk : k.kind = .container kind) : (c.share x kind).PassedOn p id := by
  rw [Cabinet.share]
  split
  · exact h
  · have hitem : ∀ y i',
        (c.modifyItem x fun i => i.withContainerKind kind.sharedVariant).bump.item? y = some i' →
        ∃ i, c.item? y = some i ∧ i'.access = i.access ∧
          (i'.kind = i.kind ∨
            i.kind = .container kind ∧ i'.kind = .container kind.sharedVariant) := by
      intro y i' hi'
      rw [item?_bump, item?_modifyItem] at hi'
      split at hi'
      · next hyx =>
        obtain ⟨i, hi, rfl⟩ := Option.map_eq_some_iff.mp hi'
        rw [hyx, hx] at hi
        cases hi
        refine ⟨k, hyx ▸ hx, ?_⟩
        rw [Item.withContainerKind]
        split
        · exact ⟨rfl, .inr ⟨hk, rfl⟩⟩
        · exact ⟨rfl, .inl rfl⟩
      · exact ⟨i', hi', rfl, .inl rfl⟩
    intro i' j' hi' hj' g hg
    obtain ⟨i, hi, ha, hkind⟩ := hitem p i' hi'
    obtain ⟨j, hj, hja, _⟩ := hitem id j' hj'
    rw [hja]
    apply h i j hi hj g
    rw [mem_passedOn_iff] at hg ⊢
    refine ⟨ha ▸ hg.1, hg.2.1, fun hcol => hg.2.2 ?_⟩
    rcases hkind with hkind | ⟨hki, hki'⟩
    · rwa [hkind]
    · rw [hki] at hcol
      rw [hki']
      cases kind <;> first | exact hcol | cases hcol

end Cabinet

theorem passedOn_convert {p id : ItemId} (stack unmet : List ItemId) (h : c.PassedOn p id) :
    (convert c stack unmet).2.PassedOn p id :=
  convert_rel (R := fun c c' => c.PassedOn p id → c'.PassedOn p id) (fun _ h => h)
    (fun h h' hp => h' (h hp)) (fun hi hk h => h.share hi hk) c stack unmet h

/-! ## Retracting -/

/-- **Retracting keeps a cabinet complete**, whatever the candidates and the order. -/
theorem drain_complete (candidates : AccessList) (l : List ItemId) (hs : c.Coherent)
    (h : c.Complete) : ((drain candidates l).on c).2.Complete := by
  induction l generalizing c with
  | nil => exact h
  | cons x rest ih =>
    rcases on_drain_cases candidates x rest c with hd | ⟨_, _, hd⟩ | ⟨supplied, k, hsup, hx, hd⟩
    · rw [hd]
      exact h
    · rw [hd]
      exact ih hs h
    · rw [hd]
      have hr := Retouched.setAccess c x (k.access.diff (candidates.diff supplied))
      apply ih (hr.coherent hs)
      intro p id hh i' j' hi' hj' g hg
      have hh := hr.holds_iff.mp hh
      rw [item?_setAccess] at hi' hj'
      -- the container passes on no more than before
      obtain ⟨i, hi, hgi, hga⟩ : ∃ i, c.item? p = some i ∧ g ∈ c.passedOn i ∧ g ∈ i.access := by
        split at hi'
        · obtain ⟨i, hi, rfl⟩ := Option.map_eq_some_iff.mp hi'
          next hpx =>
          rw [hpx, hx] at hi
          cases hi
          rw [mem_passedOn_iff] at hg
          have hga := (SortedSet.mem_diff.mp hg.1).1
          exact ⟨k, hpx ▸ hx, mem_passedOn_iff.mpr ⟨hga, hg.2⟩, hga⟩
        · exact ⟨i', hi', hg, (mem_passedOn_iff.mp hg).1⟩
      split at hj'
      · next hidx =>
        obtain ⟨j, hj, rfl⟩ := Option.map_eq_some_iff.mp hj'
        have hgj := h p id hh i j hi hj g hgi
        rw [hidx, hx] at hj
        cases hj
        refine SortedSet.mem_diff.mpr ⟨hgj, fun hlost => ?_⟩
        -- a container supplies the grant
        apply (SortedSet.mem_diff.mp hlost).2
        have hstored : ∀ q ∈ c.parents x, ∃ i, c.item? q = some i := by
          intro q hq
          exact hs.container_stored (hs.mem_parents_iff.mp hq)
        obtain ⟨a, ha, hmem⟩ := grantsOf_eq_ok hstored
        rw [hsup] at ha
        cases ha
        exact (hmem g).mpr ⟨p, hs.mem_parents_iff.mpr (hidx ▸ hh), i, hi, hga⟩
      · exact h p id hh i j' hi hj' g hgi

theorem onRemove_complete (p : Propagation) (parent child : ItemId) (hs : c.Coherent)
    (h : c.Complete) : ((p.onRemove parent child).on c).2.Complete := by
  rcases p.on_onRemove_cases parent child c with hd | ⟨reach, hd⟩ <;> rw [hd]
  · exact h
  · rcases on_retractDown_cases parent child reach c with hd | ⟨_, l, hd⟩ <;> rw [hd]
    · exact h
    · exact drain_complete _ l hs h

theorem remove_complete (parent child : ItemId) (p : Propagation) (hs : c.Sound)
    (h : c.Complete) : ((remove parent child p).on c).2.Complete := by
  cases hu : c.unlink? ⟨child, parent⟩ with
  | none =>
    rw [on_remove_of_none hu]
    exact h
  | some c₁ =>
    rw [on_remove_of_some hu, Edit.on_bind_pure]
    obtain ⟨e, hu⟩ := unlinked_of_unlink? hu
    exact onRemove_complete p parent child (hs.unlinked hu).toCoherent (h.unlinked hu)

/-! ## Merging -/

namespace Pending

/-- The grant is on its way to the item. -/
def Brings (q : Pending) (id : ItemId) (g : Grant) : Prop := ∃ a, q.find? id = some a ∧ g ∈ a

variable {q : Pending} {a : AccessList} {id x : ItemId} {g : Grant}

theorem brings_add : (q.add a x).Brings id g ↔ q.Brings id g ∨ id = x ∧ g ∈ a := by
  have hempty : g ∉ (∅ : AccessList) := SortedSet.not_mem_empty g
  simp only [Brings, add, SortedMap.find?_insert]
  by_cases hx : id = x
  · subst hx
    cases q.find? id <;> simp [hempty]
  · simp [hx]

theorem brings_foldl (l : List ItemId) (q : Pending) :
    (l.foldl (·.add a) q).Brings id g ↔ q.Brings id g ∨ id ∈ l ∧ g ∈ a := by
  induction l generalizing q with
  | nil => simp
  | cons x l ih =>
    rw [List.foldl_cons, ih, brings_add, List.mem_cons]
    tauto

theorem mem_keys_foldl (l : List ItemId) (q : Pending) :
    id ∈ (l.foldl (·.add a) q).keys ↔ id ∈ q.keys ∨ id ∈ l := by
  induction l generalizing q with
  | nil => simp
  | cons x l ih =>
    have hadd : id ∈ (q.add a x).keys ↔ id = x ∨ id ∈ q.keys := by
      simp only [SortedMap.mem_keys_iff, add, SortedMap.find?_insert]
      by_cases hx : id = x <;> simp [hx]
    rw [List.foldl_cons, ih, hadd, List.mem_cons]
    tauto

theorem brings_erase : Brings (q.erase x) id g ↔ id ≠ x ∧ q.Brings id g := by
  simp only [Brings, SortedMap.find?_erase]
  by_cases hx : id = x <;> simp [hx]

end Pending

/-- Every member holds what its containers pass on, or it is on its way there. -/
def Owed (c : Cabinet) (pending : Pending) : Prop :=
  ∀ p id, c.Holds p id → ∀ i j, c.item? p = some i → c.item? id = some j → ∀ g ∈ c.passedOn i,
    g ∈ j.access ∨ pending.Brings id g

/-- **One visit**: what the item passes on afterwards is on its way to its members. -/
theorem owed_visit {top x : ItemId} {k : Item} {grants : AccessList} {pending : Pending}
    (hs : c.Sound) (h : Owed c pending) (hx : c.item? x = some k)
    (hp : pending.find? x = some grants) :
    Owed (c.setAccess x (k.access.union grants))
      (c.passOn top .subtree x { k with access := k.access.union grants } pending) := by
  have hr := Retouched.setAccess c x (k.access.union grants)
  have hmore : ∀ {id g}, id ≠ x → pending.Brings id g →
      (c.passOn top .subtree x { k with access := k.access.union grants } pending).Brings id g := by
    intro id g hne hb
    unfold passOn
    split
    · exact (Pending.brings_foldl _ _).mpr (.inl (Pending.brings_erase.mpr ⟨hne, hb⟩))
    · exact Pending.brings_erase.mpr ⟨hne, hb⟩
  intro p id hh i' j' hi' hj' g hg
  have hh := hr.holds_iff.mp hh
  rw [item?_setAccess] at hi' hj'
  by_cases hpx : p = x
  · -- the item itself passes on
    rw [if_pos hpx, hpx, hx] at hi'
    cases hi'
    refine .inr ?_
    have hc : k.isContainer = true := hs.isContainer hh (hpx ▸ hx)
    rw [passOn, if_pos ⟨hc, .inl rfl⟩]
    exact (Pending.brings_foldl _ _).mpr (.inr ⟨hs.mem_children_iff.mpr (hpx ▸ hh), hg⟩)
  · rw [if_neg hpx] at hi'
    split at hj'
    · next hidx =>
      -- what was on its way to the item is there now
      obtain ⟨j, hj, rfl⟩ := Option.map_eq_some_iff.mp hj'
      refine .inl (SortedSet.mem_union.mpr ?_)
      have hgj := h p id hh i' j hi' hj g hg
      rw [hidx] at hgj hj
      rw [hx] at hj
      cases hj
      apply hgj.imp_right
      rintro ⟨a, ha, hga⟩
      rw [hp] at ha
      cases ha
      exact hga
    · next hidx => exact (h p id hh i' j' hi' hj' g hg).imp_right (hmore hidx)

/-- **A visit of all items, containers first, leaves nothing on its way**, and it does not fail. -/
theorem pour_complete {top : ItemId} {l : List ItemId} {pending : Pending} (hs : c.Sound)
    (hl : Onward c.children l) (hstored : ∀ id ∈ l, ∃ i, c.item? id = some i)
    (hkeys : ∀ id ∈ pending.keys, id ∈ l) (h : Owed c pending) :
    ∃ c', (pour top .subtree l pending).on c = (.ok (), c') ∧ c'.Complete := by
  induction l generalizing c pending with
  | nil =>
    refine ⟨c, rfl, fun p id hh i j hi hj g hg => ?_⟩
    apply (h p id hh i j hi hj g hg).resolve_right
    rintro ⟨a, ha, _⟩
    exact List.not_mem_nil (hkeys id (SortedMap.mem_keys_iff.mpr ⟨a, ha⟩))
  | cons x rest ih =>
    cases hp : pending.find? x with
    | none =>
      -- nothing is on its way to `x`, so it is passed by
      rw [on_pour_of_none hp]
      refine ih hs hl.2 (fun id hm => hstored id (List.mem_cons_of_mem _ hm)) (fun id hm => ?_) h
      apply (List.mem_cons.mp (hkeys id hm)).resolve_left
      rintro rfl
      obtain ⟨a, ha⟩ := SortedMap.mem_keys_iff.mp hm
      rw [hp] at ha
      cases ha
    | some grants =>
      obtain ⟨k, hx⟩ := hstored x List.mem_cons_self
      have hr := Retouched.setAccess c x (k.access.union grants)
      rw [on_pour_of_some hp hx]
      refine ih (hr.sound hs) ?_ (fun id hm => ?_) (fun id hm => ?_) (owed_visit hs h hx hp)
      · rw [show (c.setAccess x (k.access.union grants)).children = c.children from
          funext hr.children]
        exact hl.2
      · obtain ⟨i, hi⟩ := hstored id (List.mem_cons_of_mem _ hm)
        obtain ⟨i', hi', _⟩ := hr.item_after hi
        exact ⟨i', hi'⟩
      · have herase : ∀ id ∈ (pending.erase x).keys, id ∈ rest := fun id hm => by
          obtain ⟨a, ha⟩ := SortedMap.mem_keys_iff.mp hm
          rw [SortedMap.find?_erase] at ha
          split at ha
          · cases ha
          · next hne =>
            have hmem := hkeys id (SortedMap.mem_keys_iff.mpr ⟨a, ha⟩)
            exact (List.mem_cons.mp hmem).resolve_left hne
        rw [passOn] at hm
        split at hm
        · rcases (Pending.mem_keys_foldl _ _).mp hm with hm | hm
          · exact herase id hm
          · exact hl.1 id hm
        · exact herase id hm

theorem mergeDown_complete {parent child : ItemId} {i : Item} (hs : c.Sound)
    (hp : c.item? parent = some i) (hc : ∃ j, c.item? child = some j)
    (h : ∀ p id, c.Holds p id → ¬(p = parent ∧ id = child) → c.PassedOn p id) :
    ∃ c', (mergeDown parent child .subtree).on c = (.ok (), c') ∧ c'.Complete := by
  rw [on_mergeDown hp]
  refine pour_complete hs (hs.onward_inheritanceOrder child)
    (fun id hm => hs.stored_of_mem_inheritanceOrder hc hm) (fun id hm => ?_) ?_
  · obtain ⟨a, ha⟩ := SortedMap.mem_keys_iff.mp hm
    rw [SortedMap.find?_insert] at ha
    split at ha
    · next hid => exact hid ▸ hs.mem_inheritanceOrder_self child .subtree
    · cases ha
  · intro p id hh i' j' hi' hj' g hg
    by_cases hpc : p = parent ∧ id = child
    · obtain ⟨rfl, rfl⟩ := hpc
      rw [hp] at hi'
      cases hi'
      refine .inr ⟨c.passedOn i, ?_, hg⟩
      rw [SortedMap.find?_insert, if_pos rfl]
    · exact .inl (h p id hh hpc i' j' hi' hj' g hg)

/-! ## Adding -/

section Add

variable {parent child : ItemId} {a : Addition}

theorem convertKinds_passedOn (hs : c.Coherent) (hp : ∃ i, c.item? parent = some i)
    (hc : ∃ j, c.item? child = some j) :
    ∃ c', (convertKinds parent child).on c = (.ok (), c') ∧ c.Retouched c' ∧
      ∀ p id, c.PassedOn p id → c'.PassedOn p id := by
  obtain ⟨i, hp⟩ := hp
  rw [on_convertKinds, item_of_some hp]
  dsimp only
  split
  · refine ⟨(convert c [child] (c.memberIds.erase child)).2, Prod.ext ?_ rfl, retouched_convert ..,
      fun p id h => passedOn_convert _ _ h⟩
    apply convert_ok hs.membersStored _ _
    intro id hm
    rw [List.mem_singleton.mp hm]
    exact hc
  · exact ⟨c, rfl, .refl c, fun _ _ h => h⟩

/-- **After a new edge** kinds and grants settle without failure, and every member then holds what
is passed on to it. -/
theorem settle_complete (hprop : a.propagation = .inherit ∨ a.propagation = .notFromContainers)
    (e : EdgeId) (hs : c.Sound) (hp : ∃ i, c.item? parent = some i)
    (hc : ∃ j, c.item? child = some j)
    (h : ∀ p id, c.Holds p id → ¬(p = parent ∧ id = child) → c.PassedOn p id) :
    ∃ c', (a.settle parent child e).on c = (.ok (.added e), c') ∧ c'.Complete := by
  obtain ⟨c₁, hconv, hr, hpass⟩ := convertKinds_passedOn hs.toCoherent hp hc
  obtain ⟨i, hp⟩ := hp
  obtain ⟨i₁, hp₁, _⟩ := hr.item_after hp
  have hc₁ : ∃ j, c₁.item? child = some j := by
    obtain ⟨j, hc⟩ := hc
    obtain ⟨j₁, hc₁, _⟩ := hr.item_after hc
    exact ⟨j₁, hc₁⟩
  obtain ⟨c₂, hmerge, hcomplete⟩ := mergeDown_complete (hr.sound hs) hp₁ hc₁ fun p id hh hne =>
    hpass p id (h p id (hr.holds_iff.mp hh) hne)
  have honAdd : (a.propagation.onAdd parent child).on c₁ = (.ok (), c₂) := by
    rcases hprop with hprop | hprop <;> rw [hprop] <;> exact hmerge
  have hconverts : a.propagation.convertsKinds = true := by
    rcases hprop with hprop | hprop <;> rw [hprop] <;> rfl
  refine ⟨c₂, ?_, hcomplete⟩
  rw [Addition.settle, if_pos hconverts]
  show (convertKinds parent child >>= fun _ => _).on c = _
  rw [Edit.on_bind_of_ok hconv]
  show (a.propagation.onAdd parent child >>= fun _ => _).on c₁ = _
  rw [Edit.on_bind_of_ok honAdd, Edit.on_pure]

theorem add_complete (hprop : a.propagation = .inherit ∨ a.propagation = .notFromContainers)
    (hs : c.Sound) (ha : c.Accounted) (h : c.Complete) :
    ((add parent child a).on c).2.Complete := by
  cases hadd : c.checkAdd parent child a.policy with
  | error x =>
    rw [on_add_refused hadd]
    exact h
  | ok =>
    cases hi : c.index.find? ⟨child, parent⟩ with
    | some e =>
      rw [on_add_present hadd hi]
      exact h
    | none =>
      have hn := ha.nextEdge_free
      obtain ⟨_, ⟨i, j, hp, _, hc, _⟩, _⟩ := checkAdd_eq_ok_iff.mp hadd
      have hitem : ∀ x k, c.item? x = some k →
          ∃ k', (c.withEdge ⟨child, parent⟩ a.acting a.defer a.now).item? x = some k' := by
        intro x k hk
        rw [item?_withEdge, hk]
        exact ⟨_, rfl⟩
      have hback : ∀ x k', (c.withEdge ⟨child, parent⟩ a.acting a.defer a.now).item? x = some k' →
          ∃ k, c.item? x = some k ∧ k'.access = k.access ∧ k'.kind = k.kind := by
        intro x k' hk'
        rw [item?_withEdge] at hk'
        obtain ⟨k, hk, rfl⟩ := Option.map_eq_some_iff.mp hk'
        exact ⟨k, hk, rfl, rfl⟩
      rw [on_add_created hadd hi]
      obtain ⟨c', hsettle, hcomplete⟩ := settle_complete hprop c.nextEdge
        (hs.withEdge a.acting a.defer a.now hn hadd hi) (hitem _ _ hp) (hitem _ _ hc)
        fun p id hh hne => by
          refine (h p id ?_).of_same (settings_withEdge ..) (hback p) fun k' hk' => ?_
          · exact ((holds_withEdge _ _ _ hn).mp hh).resolve_right hne
          · obtain ⟨k, hk, hacc, _⟩ := hback id k' hk'
            exact ⟨k, hk, hacc⟩
      rw [hsettle]
      exact hcomplete

end Add

/-! ## Runs in which grants follow every membership -/

/-- New items, additions that inherit, moves that do so, and any other operation but a change of
grants. -/
def Operation.Inheriting (c : Cabinet) : Operation → Prop
  | insert item => c.contains item.id = false
  | add _ _ a => a.propagation = .inherit ∨ a.propagation = .notFromContainers
  | move .. => c.settings.movePolicy = .inherit ∨ c.settings.movePolicy = .notFromContainers
  | setAccess _ _ => False
  | _ => True

theorem Operation.Inheriting.fresh {op : Operation} (h : op.Inheriting c) : op.Fresh c := by
  cases op with
  | insert item => exact h
  | _ => trivial

theorem detach_complete (id : ItemId) (l : List ItemId) (h : c.Complete) :
    ((detach id l).on c).2.Complete := by
  induction l generalizing c with
  | nil => exact h
  | cons container rest ih =>
    cases hu : c.unlink? ⟨id, container⟩ with
    | none =>
      rw [on_detach_of_none hu]
      exact h
    | some c₁ =>
      rw [on_detach_of_some hu]
      obtain ⟨e, hu⟩ := unlinked_of_unlink? hu
      exact ih (h.unlinked hu)

theorem destroy_complete (id : ItemId) (h : c.Complete) : ((destroy id).on c).2.Complete := by
  rcases on_destroy_cases id c with hd | ⟨i, _, _, hd | ⟨c₁, hdet, hd⟩⟩ <;> rw [hd]
  · exact h
  · exact detach_complete id _ h
  · have := detach_complete id (c.parents id) h
    rw [hdet] at this
    exact this.eraseItem id

/-- **Every operation of such a run keeps a cabinet complete.** -/
theorem inheriting_complete {op : Operation} (hop : op.Inheriting c) (hs : c.Sound)
    (ha : c.Accounted) (h : c.Complete) : (op.after c).Complete := by
  cases op with
  | insert item => exact h.insertItem hs.toCoherent (SortedMap.contains_eq_false_iff.mp hop)
  | add parent child a =>
    rw [Operation.after_add]
    exact add_complete hop hs ha h
  | remove parent child p =>
    rw [Operation.after_remove]
    exact remove_complete parent child p hs h
  | move item origin target acting unrestricted now =>
    rw [Operation.after_move]
    rcases on_move_cases item origin target acting unrestricted now c with hd | hd | hd <;> rw [hd]
    · exact h
    · exact remove_complete _ _ _ hs h
    · have hrem := changes_remove origin item c.settings.movePolicy c
      have hlt : c.nextEdge.toNat + 0 < 2 ^ 64 := c.nextEdge.value.toNat_lt
      exact add_complete hop (hrem.sound hs ha hlt) (hrem.accounted ha hlt).1
        (remove_complete _ _ _ hs h)
  | mark key deleted now =>
    rcases Operation.after_mark c key deleted now with hd | ⟨e, hd⟩ <;> rw [hd]
    · exact h
    · exact h.markEdge e deleted now
  | setDeleted id deleted =>
    rcases Operation.after_setDeleted c id deleted with hd | hd <;> rw [hd]
    · exact h
    · exact h.modifyItem id fun _ => ⟨rfl, rfl⟩
  | setAccess id access => exact hop.elim
  | destroy id =>
    rw [Operation.after_destroy]
    exact destroy_complete id h
  | flush => exact h.flushDeferred

/-- What a run leads to from an empty cabinet if grants follow every membership in it. -/
def Inherited (settings : Settings) (epoch : Epoch) : Nat → Cabinet → Prop :=
  Reached Operation.Inheriting (Cabinet.empty settings epoch)

section Inherited

variable {settings : Settings} {epoch : Epoch} {n : Nat}

theorem Inherited.built (h : Inherited settings epoch n c) : Built settings epoch n c :=
  Reached.mono h fun _ _ => Operation.Inheriting.fresh

theorem Inherited.complete (h : Inherited settings epoch n c) (hn : n < 2 ^ 64 - 1) :
    c.Complete := by
  induction h with
  | start =>
    intro p id hh
    exact absurd hh (not_holds_empty settings epoch)
  | step op hr hop ih =>
    have hb := Inherited.built hr
    exact inheriting_complete hop (hb.sound (by omega)) (hb.accounted (by omega)).1 (ih (by omega))

/-- **Every member holds what its container passes on**: the grants of the container, less the
public ones, and less those of elevated roles if it is a notebook inside a sharing area.  The bound
says that the number of the next edge has not overflowed. -/
theorem inherited_member_holds (h : Inherited settings epoch n c) (hn : n < 2 ^ 64 - 1)
    {p id : ItemId} (hm : id ∈ c.children p ∨ c.isMember ⟨id, p⟩ = true) :
    ∃ i j, c.item? p = some i ∧ c.item? id = some j ∧ ∀ g ∈ i.access, g.isPublic = false →
      (i.kind = .container .sharedNotebook → settings.isElevated g.principal = false) →
      g ∈ j.access := by
  have hs := h.built.sound hn
  have hh : c.Holds p id := hm.elim hs.mem_children_iff.mp hs.isMember_iff.mp
  obtain ⟨i, hi⟩ := hs.container_stored hh
  obtain ⟨j, hj⟩ := hs.item_stored hh
  have hset : c.settings = settings := (h.built.changes hn).settings
  refine ⟨i, j, hi, hj, fun g hg hpub hel => h.complete hn p id hh i j hi hj g ?_⟩
  refine mem_passedOn_iff.mpr ⟨hg, hpub, fun hcol => ?_⟩
  rw [hset]
  apply hel
  cases hk : i.kind with
  | document => simp [hk, ItemKind.isContainerThat, ItemKind.container?] at hcol
  | container k =>
    rw [hk] at hcol
    cases k <;> first | rfl | cases hcol

theorem inherited_member_holds_filed :
    ∃ i j, (filed [⟨.user "ann", ⟨"READ"⟩⟩]).item? (.ofNat 1) = some i ∧
      (filed [⟨.user "ann", ⟨"READ"⟩⟩]).item? (.ofNat 2) = some j ∧
      ∀ g ∈ i.access, g.isPublic = false →
        (i.kind = .container .sharedNotebook → Settings.standard.isElevated g.principal = false) →
        g ∈ j.access := by
  have hl : AllAllowed Operation.Inheriting (Operation.filing [⟨.user "ann", ⟨"READ"⟩⟩])
      (.empty .standard 0) := ⟨rfl, rfl, .inl rfl, trivial⟩
  obtain ⟨n, hn, h⟩ := reached_afterAll (.start : Reached _ _ 0 _) hl
  have hn : n ≤ 0 + 3 := hn
  have hm : (filed [⟨.user "ann", ⟨"READ"⟩⟩]).isMember ⟨.ofNat 2, .ofNat 1⟩ = true := by cbv
  exact inherited_member_holds h (by omega) (.inr hm)

end Inherited

end Filing
