import Filing.Proofs.Inheritance.Order
import Filing.Proofs.Placement

/-!
# What the conversion of kinds comes to

The conversion goes through a stack, and converts one item at a time.  Which items it converts does
not depend on the order in which members are listed: they are the item that was added and all below
it, each once (`Sound.convert_spec`).

* `item?_shareAll`: **exactly these items take the shared variants of their kinds**.
* `generation_shareAll`: the generation counts those whose kinds change.
-/

namespace Filing

open Cabinet Relation

variable {c c' : Cabinet}

/-! ## One item -/

/-- The shared variant of a kind; documents have no other. -/
def ItemKind.sharedVariant : ItemKind → ItemKind
  | document => document
  | container k => container k.sharedVariant

theorem ItemKind.sharedVariant_sharedVariant (k : ItemKind) :
    k.sharedVariant.sharedVariant = k.sharedVariant := by
  rcases k with _ | k
  · rfl
  · cases k <;> rfl

/-- The item with the shared variant of its kind. -/
def Item.shared (i : Item) : Item := { i with kind := i.kind.sharedVariant }

theorem Item.outline_shared (i : Item) : i.shared.outline = i.outline := by
  have h : i.shared.isContainer = i.isContainer := by
    show i.kind.sharedVariant.isContainer = i.kind.isContainer
    rcases i.kind with _ | k <;> rfl
  rw [outline, outline, h]
  rfl

theorem Item.shared_shared (i : Item) : i.shared.shared = i.shared := by
  rw [shared, shared, i.kind.sharedVariant_sharedVariant]

namespace Cabinet

/-- Whether the item has a kind other than its shared variant. -/
def isConvertible (c : Cabinet) (id : ItemId) : Bool :=
  (c.item? id).any fun i => i.kind.sharedVariant ≠ i.kind

/-- Gives an item the shared variant of its kind. -/
def shareItem (c : Cabinet) (id : ItemId) : Cabinet :=
  if c.isConvertible id then (c.modifyItem id Item.shared).bump else c

variable {id : ItemId} {i : Item}

theorem shareItem_of_document (hi : c.item? id = some i) (hk : i.kind = .document) :
    c.shareItem id = c := by
  rw [shareItem, if_neg]
  simp [isConvertible, hi, hk, ItemKind.sharedVariant]

theorem shareItem_of_container {kind : ContainerKind} (hi : c.item? id = some i)
    (hk : i.kind = .container kind) : c.shareItem id = c.share id kind := by
  rw [shareItem, share]
  by_cases h : kind.sharedVariant = kind
  · rw [if_neg (by simp [isConvertible, hi, hk, ItemKind.sharedVariant, h]), if_pos h]
  · rw [if_pos (by simp [isConvertible, hi, hk, ItemKind.sharedVariant, h]), if_neg h]
    refine congrArg (fun items => bump { c with items }) (SortedMap.ext fun j => ?_)
    show (c.modifyItem id _).item? j = (c.modifyItem id _).item? j
    rw [item?_modifyItem, item?_modifyItem]
    by_cases hj : j = id
    · subst hj
      simp [hi, Item.withContainerKind, Item.shared, Item.isContainer, ItemKind.isContainer, hk,
        ItemKind.container?, ItemKind.sharedVariant]
    · rw [if_neg hj, if_neg hj]

theorem item?_shareItem (c : Cabinet) (id j : ItemId) :
    (c.shareItem id).item? j = if j = id then (c.item? j).map Item.shared else c.item? j := by
  rw [shareItem]
  split
  · rw [item?_bump, item?_modifyItem]
  · next h =>
    -- an item that has the shared variant of its kind stays as it is
    split
    · next hj =>
      subst hj
      cases hi : c.item? j with
      | none => rfl
      | some i =>
        have hk : i.kind.sharedVariant = i.kind := by simpa [isConvertible, hi] using h
        rw [Option.map_some, Item.shared, hk]
    · rfl

theorem retouched_shareItem (c : Cabinet) (id : ItemId) : c.Retouched (c.shareItem id) := by
  rw [shareItem]
  split
  · exact (Retouched.modifyItem c id Item.outline_shared).trans (.bump _)
  · exact .refl c

/-! ## Many items -/

/-- Gives items the shared variants of their kinds, one after the other. -/
def shareAll (c : Cabinet) (l : List ItemId) : Cabinet := l.foldl shareItem c

theorem shareAll_cons (c : Cabinet) (id : ItemId) (l : List ItemId) :
    c.shareAll (id :: l) = (c.shareItem id).shareAll l := rfl

theorem retouched_shareAll (c : Cabinet) (l : List ItemId) : c.Retouched (c.shareAll l) := by
  induction l generalizing c with
  | nil => exact .refl c
  | cons id l ih => exact (retouched_shareItem c id).trans (ih _)

/-- **Exactly the items that are listed take the shared variants of their kinds.** -/
theorem item?_shareAll (c : Cabinet) (l : List ItemId) (j : ItemId) :
    (c.shareAll l).item? j = if j ∈ l then (c.item? j).map Item.shared else c.item? j := by
  induction l generalizing c with
  | nil => rfl
  | cons id l ih =>
    have hidem : Item.shared ∘ Item.shared = Item.shared := funext Item.shared_shared
    rw [shareAll_cons, ih, item?_shareItem]
    by_cases hj : j = id <;> by_cases hl : j ∈ l <;> simp [hj, hl, hidem]

theorem map_item?_shareAll {α : Type} {F : Item → α} (hf : ∀ i : Item, F i.shared = F i)
    (c : Cabinet) (l : List ItemId) (j : ItemId) :
    ((c.shareAll l).item? j).map F = (c.item? j).map F := by
  rw [item?_shareAll]
  split
  · rw [Option.map_map]
    exact congrArg (Option.map · (c.item? j)) (funext hf)
  · rfl

/-- **The generation counts the items whose kinds change.** -/
theorem generation_shareAll (c : Cabinet) {l : List ItemId} (hn : l.Nodup) :
    (c.shareAll l).generation = c.generation + .ofNat (l.countP c.isConvertible) := by
  induction l generalizing c with
  | nil => exact (UInt64.add_zero _).symm
  | cons id l ih =>
    obtain ⟨hid, hn⟩ := List.nodup_cons.mp hn
    have hrest : l.countP (c.shareItem id).isConvertible = l.countP c.isConvertible := by
      refine List.countP_congr fun j hj => ?_
      have hne : j ≠ id := fun h => hid (h ▸ hj)
      rw [isConvertible, isConvertible, item?_shareItem, if_neg hne]
    rw [shareAll_cons, ih _ hn, hrest, List.countP_cons, shareItem]
    split
    · rw [Nat.add_comm, UInt64.ofNat_add, ← UInt64.add_assoc]
      rfl
    · rfl

end Cabinet

/-! ## The conversion -/

theorem stackUp_eq_meet (l unmet queue stack : List ItemId) :
    stackUp l unmet (queue.reverse ++ stack) =
      ((meet l unmet queue).1, (meet l unmet queue).2.reverse ++ stack) := by
  induction l generalizing unmet queue with
  | nil => rfl
  | cons id rest ih =>
    unfold stackUp meet
    split
    · rw [← ih, List.reverse_append]
      rfl
    · exact ih unmet queue

theorem stackUp_spec (l unmet stack : List ItemId) :
    ∃ new, (stackUp l unmet stack).2 = new ++ stack ∧
      (new ++ (stackUp l unmet stack).1).Perm unmet ∧ ∀ y ∈ l, y ∈ unmet → y ∈ new := by
  obtain ⟨new, hq, hp, hnew⟩ := meet_spec l unmet []
  have h := stackUp_eq_meet l unmet [] stack
  rw [List.reverse_nil, List.nil_append] at h
  rw [List.nil_append] at hq
  rw [h, hq]
  refine ⟨new.reverse, rfl, ?_, fun y hy hu => List.mem_reverse.mpr (hnew y hy hu)⟩
  exact ((List.reverse_perm new).append_right _).trans hp

/-- What was converted from a stack: nothing but what was stacked or unmet, nothing twice, nothing
that can not be reached, and with each item the members of it that were unmet. -/
structure Converted (c : Cabinet) (stack unmet l : List ItemId) : Prop where
  subperm : l.Subperm (stack ++ unmet)
  stacked : ∀ x ∈ stack, x ∈ l
  closed : ∀ x ∈ l, ∀ y ∈ c.children x, y ∈ unmet → y ∈ l
  reached : ∀ x ∈ l, ∃ y ∈ stack, ReflTransGen (fun a b => b ∈ c.children a) y x

theorem Converted.nil (unmet : List ItemId) : Converted c [] unmet [] :=
  ⟨List.nil_subperm, nofun, nofun, nofun⟩

theorem Converted.leaf {id : ItemId} {stack unmet l : List ItemId}
    (h : Converted c stack unmet l) (hid : c.children id = []) :
    Converted c (id :: stack) unmet (id :: l) where
  subperm := (List.subperm_cons id).mpr h.subperm
  stacked x hx := by
    rcases List.mem_cons.mp hx with rfl | hx
    · exact List.mem_cons_self
    · exact List.mem_cons_of_mem _ (h.stacked x hx)
  closed x hx y hy hu := by
    rcases List.mem_cons.mp hx with rfl | hx
    · rw [hid] at hy
      cases hy
    · exact List.mem_cons_of_mem _ (h.closed x hx y hy hu)
  reached x hx := by
    rcases List.mem_cons.mp hx with rfl | hx
    · exact ⟨x, List.mem_cons_self, .refl⟩
    · obtain ⟨y, hy, hyx⟩ := h.reached x hx
      exact ⟨y, List.mem_cons_of_mem _ hy, hyx⟩

theorem Converted.node {id : ItemId} {stack unmet l : List ItemId}
    (h : Converted c (stackUp (c.children id) unmet stack).2
      (stackUp (c.children id) unmet stack).1 l) :
    Converted c (id :: stack) unmet (id :: l) := by
  obtain ⟨new, hq, hp, hnew⟩ := stackUp_spec (c.children id) unmet stack
  rw [hq] at h
  have hl : ∀ x ∈ new, x ∈ l := fun x hx => h.stacked x (List.mem_append_left _ hx)
  refine ⟨(List.subperm_cons id).mpr (h.subperm.trans (List.Perm.subperm ?_)), ?_, ?_, ?_⟩
  · rw [List.append_assoc]
    refine (List.perm_append_comm_assoc new stack _).trans (hp.append_left stack)
  · intro x hx
    rcases List.mem_cons.mp hx with rfl | hx
    · exact List.mem_cons_self
    · exact List.mem_cons_of_mem _ (h.stacked x (List.mem_append_right _ hx))
  · intro x hx y hy hu
    apply List.mem_cons_of_mem
    rcases List.mem_cons.mp hx with rfl | hx
    · exact hl y (hnew y hy hu)
    · rcases List.mem_append.mp (hp.mem_iff.mpr hu) with hu | hu
      · exact hl y hu
      · exact h.closed x hx y hy hu
  · intro x hx
    rcases List.mem_cons.mp hx with rfl | hx
    · exact ⟨x, List.mem_cons_self, .refl⟩
    · obtain ⟨y, hy, hyx⟩ := h.reached x hx
      rcases mem_stackUp (hq ▸ hy) with hy | hy
      · exact ⟨id, List.mem_cons_self, .head hy hyx⟩
      · exact ⟨y, List.mem_cons_of_mem _ hy, hyx⟩

theorem convert_eq_shareAll (hs : c.Sound) (stack unmet : List ItemId)
    (hstored : ∀ id ∈ stack, ∃ i, c.item? id = some i) :
    ∃ l, convert c stack unmet = (.ok (), c.shareAll l) ∧ Converted c stack unmet l := by
  induction c, stack, unmet using convert.induct with
  | case1 c unmet =>
    rw [convert]
    exact ⟨[], rfl, .nil unmet⟩
  | case2 c unmet id stack hi =>
    obtain ⟨i, hi'⟩ := hstored id List.mem_cons_self
    rw [hi] at hi'
    cases hi'
  | case3 c unmet id stack i hi hk ih =>
    obtain ⟨l, hl, hconv⟩ := ih hs fun id hm => hstored id (List.mem_cons_of_mem _ hm)
    -- a document has no members, so nothing is put on the stack
    have hleaf : c.children id = [] := by
      apply List.eq_nil_iff_forall_not_mem.mpr
      intro y hy
      have hc := hs.isContainer (hs.mem_children_iff.mp hy) hi
      rw [Item.isContainer, hk] at hc
      cases hc
    refine ⟨id :: l, ?_, hconv.leaf hleaf⟩
    rw [convert, hi]
    simp only [hk]
    rw [hl, shareAll_cons, shareItem_of_document hi hk]
  | case4 c unmet id stack i hi kind hk met ih =>
    have hr := retouched_share c id kind
    have hchildren : (c.share id kind).children = c.children := funext hr.children
    obtain ⟨l, hl, hconv⟩ := ih (hr.sound hs) fun j hm => by
      obtain ⟨k, hk⟩ : ∃ k, c.item? j = some k := by
        rcases mem_stackUp hm with hm | hm
        · exact hs.item_stored (hs.mem_children_iff.mp hm)
        · exact hstored j (List.mem_cons_of_mem _ hm)
      obtain ⟨k', hk', _⟩ := hr.item_after hk
      exact ⟨k', hk'⟩
    have hconv' : Converted c met.2 met.1 l := by
      refine ⟨hconv.subperm, hconv.stacked, ?_, ?_⟩
      · exact hchildren ▸ hconv.closed
      · exact hchildren ▸ hconv.reached
    refine ⟨id :: l, ?_, hconv'.node⟩
    rw [convert, hi]
    simp only [hk]
    rw [hl, shareAll_cons, shareItem_of_container hi hk]

namespace Cabinet.Sound

variable {parent child : ItemId} {i j : Item}

/-- **The conversion reaches the item and everything below it, each once.** -/
theorem convert_spec (hs : c.Sound) (hc : c.item? child = some j) :
    ∃ l : List ItemId, l.Nodup ∧ (∀ x, x ∈ l ↔ ReflTransGen c.Holds child x) ∧
      convert c [child] (c.memberIds.erase child) = (.ok (), c.shareAll l) := by
  obtain ⟨l, hl, hconv⟩ := convert_eq_shareAll hs [child] (c.memberIds.erase child) fun id hm =>
    ⟨j, List.mem_singleton.mp hm ▸ hc⟩
  refine ⟨l, ?_, fun x => ⟨fun hx => ?_, fun hx => ?_⟩, hl⟩
  · obtain ⟨l', hp, hsub⟩ := hconv.subperm
    exact hp.nodup_iff.mp (hsub.nodup (List.nodup_cons.mpr
      ⟨c.memberIds_nodup.not_mem_erase, c.memberIds_nodup.erase child⟩))
  · obtain ⟨y, hy, hyx⟩ := hconv.reached x hx
    rw [List.mem_singleton.mp hy] at hyx
    exact ReflTransGen.mono (fun a b hab => hs.mem_children_iff.mp hab) child x hyx
  · induction hx with
    | refl => exact hconv.stacked child List.mem_cons_self
    | @tail p y _ hpy ih =>
      by_cases hy : y = child
      · exact hy ▸ hconv.stacked child List.mem_cons_self
      · refine hconv.closed p ih y (hs.mem_children_iff.mpr hpy) ?_
        exact (List.mem_erase_of_ne hy).mpr (mem_memberIds_iff.mpr ⟨p, hpy⟩)

/-- **In a sharing area, the item that was added and all below it take the shared variants of their
kinds**; elsewhere kinds stay as they are. -/
theorem on_convertKinds (hs : c.Sound) (hp : c.item? parent = some i)
    (hc : c.item? child = some j) :
    ∃ l : List ItemId, l.Nodup ∧
      (∀ x, x ∈ l ↔ i.isShared = true ∧ ReflTransGen c.Holds child x) ∧
      (convertKinds parent child).on c = (.ok (), c.shareAll l) := by
  rw [Filing.on_convertKinds, item_of_some hp]
  dsimp only
  cases i.isShared with
  | false => exact ⟨[], List.nodup_nil, by simp, rfl⟩
  | true =>
    obtain ⟨l, hn, hl, hconv⟩ := hs.convert_spec hc
    exact ⟨l, hn, by simpa using hl, hconv⟩

end Cabinet.Sound

end Filing
