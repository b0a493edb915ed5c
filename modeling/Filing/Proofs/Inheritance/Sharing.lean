import Filing.Proofs.Requests

/-!
# Kinds inside sharing areas

A container that joins a sharing area takes the shared variant of its kind, and so do the containers
below it; no kind changes otherwise.  If additions and moves convert kinds, then **no plain folder
or notebook is ever a member of a container that belongs to a sharing area** (`Assimilated`).

* `Sound.on_add_converting`: an addition either changes nothing or makes its edge, and then it
  converts the item that was added and all below it, exactly if the container belongs to a sharing
  area (`Shares`).  It does not fail half-way.
* `Joins.assimilated`: so it leaves no obligation behind, although every container that it converts
  puts one on its own members.
* `sharing_areas_converted` is about runs.
-/

namespace Filing

open Cabinet Relation

variable {c c' c'' : Cabinet} {parent child p x : ItemId}

namespace Cabinet

/-- The kind of a stored item. -/
def kind? (c : Cabinet) (id : ItemId) : Option ItemKind := (c.item? id).map Item.kind

/-- The item is stored and belongs to a sharing area. -/
def IsShared (c : Cabinet) (id : ItemId) : Prop :=
  ∃ k, c.kind? id = some k ∧ k.isContainerThat ContainerKind.isShared = true

theorem isShared_congr {id : ItemId} (h : c'.kind? id = c.kind? id) :
    c'.IsShared id ↔ c.IsShared id := by
  rw [IsShared, IsShared, h]

theorem isShared_iff {id : ItemId} {i : Item} (hi : c.item? id = some i) :
    c.IsShared id ↔ i.isShared = true := by
  rw [IsShared, kind?, hi, Option.map_some]
  simp [Item.isShared]

theorem isShared_of_isSharedCollection {id : ItemId} {i : Item} (hi : c.item? id = some i)
    (h : i.kind.isContainerThat ContainerKind.isSharedCollection = true) : c.IsShared id := by
  refine ⟨i.kind, by rw [kind?, hi, Option.map_some], ?_⟩
  cases hk : i.kind with
  | document => simp [hk, ItemKind.isContainerThat, ItemKind.container?] at h
  | container k =>
    rw [hk] at h
    cases k <;> first | rfl | cases h

/-- **No member of a container in a sharing area has a kind other than its shared variant.** -/
def Assimilated (c : Cabinet) : Prop :=
  ∀ p x k, c.Holds p x → c.IsShared p → c.kind? x = some k → k.sharedVariant = k

/-! ## Memberships that end -/

/-- Memberships have ended, at most, and kinds are as they were. -/
structure Loosened (c c' : Cabinet) : Prop where
  holds : ∀ {p x}, c'.Holds p x → c.Holds p x
  kind? : ∀ id, c'.kind? id = c.kind? id

namespace Loosened

theorem refl (c : Cabinet) : Loosened c c := ⟨id, fun _ => rfl⟩

theorem trans (h : Loosened c c') (h' : Loosened c' c'') : Loosened c c'' :=
  ⟨fun hh => h.holds (h'.holds hh), fun id => (h'.kind? id).trans (h.kind? id)⟩

theorem assimilated (h : Loosened c c') (ha : c.Assimilated) : c'.Assimilated := by
  intro p x k hpx hs hk
  exact ha p x k (h.holds hpx) ((isShared_congr (h.kind? p)).mp hs) (h.kind? x ▸ hk)

theorem of_item? {f : ItemId → Item → Item} (h : ∀ id, c'.item? id = (c.item? id).map (f id))
    (hf : ∀ id i, (f id i).kind = i.kind) (hh : ∀ {p x}, c'.Holds p x → c.Holds p x) :
    Loosened c c' :=
  ⟨hh, map_item?_of_map h hf⟩

theorem unlink? {key : Membership} (h : c.unlink? key = some c') : Loosened c c' := by
  obtain ⟨e, hu⟩ := unlinked_of_unlink? h
  exact of_item? hu.item? (fun _ _ => rfl) hu.holds_before

theorem flushDeferred (c : Cabinet) : Loosened c c.flushDeferred.1 :=
  of_item? (item?_flushDeferred c) (fun _ _ => rfl) holds_flushDeferred.mp

theorem modifyItem (c : Cabinet) (id : ItemId) {f : Item → Item} (hf : ∀ i, (f i).kind = i.kind) :
    Loosened c (c.modifyItem id f) :=
  ⟨fun hh => hh, fun j => map_item?_modifyItem c id j f hf⟩

end Loosened

theorem Coherent.kind?_insertItem (hc : c.Coherent) {item : Item} (hn : c.item? item.id = none)
    (hpx : c.Holds p x) :
    (c.insertItem item).kind? p = c.kind? p ∧ (c.insertItem item).kind? x = c.kind? x := by
  have hold : ∀ {id i}, c.item? id = some i → (c.insertItem item).kind? id = c.kind? id := by
    intro id i hi
    rw [kind?, item?_insertItem, if_neg]
    · rfl
    · rintro rfl
      cases hn.symm.trans hi
  obtain ⟨i, hi⟩ := hc.container_stored hpx
  obtain ⟨j, hj⟩ := hc.item_stored hpx
  exact ⟨hold hi, hold hj⟩

theorem kind?_before_erase {id j : ItemId} {k : ItemKind} (hk : (c.eraseItem id).kind? j = some k) :
    c.kind? j = some k := by
  obtain ⟨i, hi, rfl⟩ := Option.map_eq_some_iff.mp hk
  exact Option.map_eq_some_iff.mpr ⟨i, item_before_erase hi, rfl⟩

theorem Assimilated.insertItem (ha : c.Assimilated) (hc : c.Coherent) {item : Item}
    (hn : c.item? item.id = none) : (c.insertItem item).Assimilated := by
  intro p x k hpx hs hk
  have hpx : c.Holds p x := hpx
  obtain ⟨hp, hx⟩ := hc.kind?_insertItem hn hpx
  exact ha p x k hpx ((isShared_congr hp).mp hs) (hx ▸ hk)

theorem Assimilated.eraseItem (ha : c.Assimilated) (id : ItemId) :
    (c.eraseItem id).Assimilated := by
  rintro p x k hpx ⟨l, hl, hs⟩ hk
  exact ha p x k hpx ⟨l, kind?_before_erase hl, hs⟩ (kind?_before_erase hk)

theorem Regranted.kind? (h : c.Regranted c') (id : ItemId) : c'.kind? id = c.kind? id :=
  h.map_item? (fun _ => rfl) id

theorem Regranted.loosened (h : c.Regranted c') : Loosened c c' :=
  ⟨h.retouched.holds_iff.mp, h.kind?⟩

theorem ending_loosened : Ending Loosened where
  refl := .refl
  trans := .trans
  unlink? := .unlink?
  onRemove p parent child c := (p.regranted_onRemove parent child c).loosened

/-! ## Conversion -/

/-- **What an addition does to kinds.**  If the container belongs to a sharing area, then the item
and everything below it take the shared variants of their kinds; all other kinds stay. -/
structure Shares (c : Cabinet) (parent child : ItemId) (c' : Cabinet) : Prop where
  below : c.IsShared parent → ∀ x, ReflTransGen c'.Holds child x →
    c'.kind? x = (c.kind? x).map ItemKind.sharedVariant
  beside : ∀ x, ¬ReflTransGen c'.Holds child x → c'.kind? x = c.kind? x
  outside : ¬c.IsShared parent → ∀ x, c'.kind? x = c.kind? x

/-- **The conversion leaves no obligation behind.** -/
theorem Shares.assimilated (h : Shares c parent child c') (ha : c.Assimilated)
    (hh : ∀ p x, c'.Holds p x ↔ c.Holds p x ∨ p = parent ∧ x = child) : c'.Assimilated := by
  intro p x k hpx hp hk
  by_cases hs : c.IsShared parent
  · by_cases hx : ReflTransGen c'.Holds child x
    · -- what has the shared variant of a kind can not be converted again
      rw [h.below hs x hx] at hk
      obtain ⟨k₀, _, rfl⟩ := Option.map_eq_some_iff.mp hk
      exact k₀.sharedVariant_sharedVariant
    · -- neither is the container below the item that was added
      have hp' : ¬ReflTransGen c'.Holds child p := fun hp' => hx (hp'.tail hpx)
      have hold : c.Holds p x := by
        refine ((hh p x).mp hpx).resolve_right ?_
        rintro ⟨_, rfl⟩
        exact hx .refl
      exact ha p x k hold ((isShared_congr (h.beside p hp')).mp hp) (h.beside x hx ▸ hk)
  · have hp' : c.IsShared p := (isShared_congr (h.outside hs p)).mp hp
    have hold : c.Holds p x := by
      refine ((hh p x).mp hpx).resolve_right ?_
      rintro ⟨rfl, _⟩
      exact hs hp'
    exact ha p x k hold hp' (h.outside hs x ▸ hk)

theorem kind?_shareAll (c : Cabinet) (l : List ItemId) (x : ItemId) :
    (c.shareAll l).kind? x =
      if x ∈ l then (c.kind? x).map ItemKind.sharedVariant else c.kind? x := by
  rw [kind?, item?_shareAll]
  split
  · rw [kind?, Option.map_map, Option.map_map]
    rfl
  · rfl

theorem shares_of_shareAll {i : Item} {l : List ItemId} (hp : c.item? parent = some i)
    (hl : ∀ x, x ∈ l ↔ i.isShared = true ∧ ReflTransGen c.Holds child x) :
    Shares c parent child (c.shareAll l) := by
  have hholds : (c.shareAll l).Holds = c.Holds := by
    funext p x
    exact propext (retouched_shareAll c l).holds_iff
  constructor
  · intro hs x hx
    rw [kind?_shareAll, if_pos ((hl x).mpr ⟨(isShared_iff hp).mp hs, hholds ▸ hx⟩)]
  · intro x hx
    rw [kind?_shareAll, if_neg fun hm => hx (hholds ▸ ((hl x).mp hm).2)]
  · intro hs x
    rw [kind?_shareAll, if_neg fun hm => hs ((isShared_iff hp).mpr ((hl x).mp hm).1)]

theorem Shares.congr {d d' : Cabinet} (h : Shares c parent child c')
    (hk : ∀ x, d.kind? x = c.kind? x) (hk' : ∀ x, d'.kind? x = c'.kind? x)
    (hh : d'.Holds = c'.Holds) : Shares d parent child d' where
  below hs x hx := by
    rw [hk', hk]
    exact h.below ((isShared_congr (hk parent)).mp hs) x (hh ▸ hx)
  beside x hx := by
    rw [hk', hk]
    exact h.beside x (hh ▸ hx)
  outside hs x := by
    rw [hk', hk]
    exact h.outside (fun hs' => hs ((isShared_congr (hk parent)).mpr hs')) x

theorem kind?_withEdge (c : Cabinet) (key : Membership) (owner : Principal) (defer : Bool)
    (now : Timestamp) (x : ItemId) : (c.withEdge key owner defer now).kind? x = c.kind? x :=
  map_item?_of_map (item?_withEdge c key owner defer now) (fun _ _ => rfl) x

end Cabinet

/-! ## Additions -/

/-- **What an addition does that makes its edge**: there is one membership more, kinds are converted
and grants are passed on. -/
structure Cabinet.Joins (c : Cabinet) (parent child : ItemId) (c' : Cabinet) : Prop where
  holds : ∀ p x, c'.Holds p x ↔ c.Holds p x ∨ p = parent ∧ x = child
  shares : Shares c parent child c'
  inherits : Inherits c c'

theorem Cabinet.Joins.assimilated (h : c.Joins parent child c') (ha : c.Assimilated) :
    c'.Assimilated :=
  h.shares.assimilated ha h.holds

section Add

variable {a : Addition}

theorem settle_converting {i j : Item} (hs : c.Sound) (hp : c.item? parent = some i)
    (hc : c.item? child = some j) (hh : c.Holds parent child)
    (hconv : a.propagation.convertsKinds = true) (e : EdgeId) :
    ∃ c', (a.settle parent child e).on c = (.ok (.added e), c') ∧ c.Retouched c' ∧
      Shares c parent child c' ∧ Inherits c c' := by
  obtain ⟨l, _, hl, hkinds⟩ := hs.on_convertKinds hp hc
  have hr := retouched_shareAll c l
  obtain ⟨i₁, hp₁, _⟩ := hr.item_after hp
  obtain ⟨j₁, hc₁, _⟩ := hr.item_after hc
  obtain ⟨c', hgrants, hr', hin⟩ :=
    a.propagation.on_onAdd (hr.sound hs) hp₁ hc₁ (hr.holds_iff.mpr hh)
  have hsettle : (a.settle parent child e).on c = (.ok (.added e), c') := by
    rw [Addition.settle, if_pos hconv]
    show (convertKinds parent child >>= fun _ => _).on c = _
    rw [Edit.on_bind_of_ok hkinds]
    show (a.propagation.onAdd parent child >>= fun _ => _).on _ = _
    rw [Edit.on_bind_of_ok hgrants, Edit.on_pure]
  -- a conversion leaves the grants alone
  refine ⟨c', hsettle, hr.trans hr'.retouched, ?_,
    hin.congr (map_item?_shareAll (fun _ => rfl) c l)⟩
  refine (shares_of_shareAll hp hl).congr (fun _ => rfl) hr'.kind? ?_
  funext p x
  exact propext hr'.retouched.holds_iff

/-- **An addition that converts kinds** changes nothing, or makes its edge and tells so. -/
theorem Cabinet.Sound.on_add_converting (hs : c.Sound) (ha : c.Accounted) (parent child : ItemId)
    (hconv : a.propagation.convertsKinds = true) :
    ((add parent child a).on c).2 = c ∨
      ∃ c', (add parent child a).on c = (.ok (.added c.nextEdge), c') ∧ ¬c.Holds parent child ∧
        c.Joins parent child c' := by
  cases hadd : c.checkAdd parent child a.policy with
  | error x =>
    rw [on_add_refused hadd]
    exact .inl rfl
  | ok =>
    cases hi : c.index.find? ⟨child, parent⟩ with
    | some e =>
      rw [on_add_present hadd hi]
      exact .inl rfl
    | none =>
      have hn := ha.nextEdge_free
      have hholds : ∀ p x, (c.withEdge ⟨child, parent⟩ a.acting a.defer a.now).Holds p x ↔
          c.Holds p x ∨ p = parent ∧ x = child := fun p x => holds_withEdge _ _ _ hn
      obtain ⟨_, ⟨i, j, hp, _, hc, _⟩, _⟩ := checkAdd_eq_ok_iff.mp hadd
      obtain ⟨c', hsettle, hr, hshares, hin⟩ := settle_converting
        (hs.withEdge a.acting a.defer a.now hn hadd hi)
        (by rw [item?_withEdge, hp]; rfl) (by rw [item?_withEdge, hc]; rfl)
        ((hholds parent child).mpr (.inr ⟨rfl, rfl⟩)) hconv c.nextEdge
      refine .inr ⟨c', (on_add_created hadd hi).trans hsettle, hs.find?_eq_none_iff.mp hi,
        fun p x => ?_, ?_, hin.congr (map_item?_of_map (item?_withEdge _ _ _ _ _) fun _ _ => rfl)⟩
      · rw [hr.holds_iff, hholds]
      · exact hshares.congr (fun x => (kind?_withEdge ..).symm) (fun _ => rfl) rfl

/-- **A move** changes nothing, or is no more than a removal, or adds the item after it. -/
theorem Cabinet.Sound.on_move_converting (hs : c.Sound) (ha : c.Accounted)
    (item origin target : ItemId) (acting : Principal) (unrestricted : Bool) (now : Timestamp)
    (hconv : c.settings.movePolicy.convertsKinds = true)
    (hc' : ((move item origin target acting unrestricted now).on c).2 = c') :
    c' = c ∨ ∃ c₁, ((remove origin item c.settings.movePolicy).on c).2 = c₁ ∧
      (c' = c₁ ∨ c₁.Joins target item c') := by
  subst hc'
  rcases on_move_cases item origin target acting unrestricted now c with hm | hm | hm <;> rw [hm]
  · exact .inl rfl
  · exact .inr ⟨_, rfl, .inl rfl⟩
  · refine .inr ⟨_, rfl, ?_⟩
    have hchanges := changes_remove origin item c.settings.movePolicy c
    have hlt : c.nextEdge.toNat + 0 < 2 ^ 64 := c.nextEdge.value.toNat_lt
    rcases (hchanges.sound hs ha hlt).on_add_converting (a := c.movedIn acting now)
      (hchanges.accounted ha hlt).1 target item hconv with hadd | ⟨c', hadd, _, hjoins⟩
    · exact .inl hadd
    · rw [hadd]
      exact .inr hjoins

end Add

/-! ## Requests -/

namespace Request

/-- New items, and additions and moves that convert kinds; other requests are free. -/
def Converting (c : Cabinet) : Request → Prop
  | operation (.insert item) => c.contains item.id = false
  | operation (.add _ _ a) => a.propagation.convertsKinds = true
  | configure settings => settings.movePolicy.convertsKinds = true
  | _ => True

theorem Converting.fresh {r : Request} (h : r.Converting c) : r.Fresh c :=
  fresh_of_insert (by rintro item rfl; exact h)

/-- Moves convert kinds, and there is nothing left to convert. -/
structure Settled (c : Cabinet) : Prop where
  moves : c.settings.movePolicy.convertsKinds = true
  assimilated : c.Assimilated

theorem moves_after {r : Request} (h : c.Orderly) (hr : r.Converting c)
    (hm : c.settings.movePolicy.convertsKinds = true) :
    (r.after c).settings.movePolicy.convertsKinds = true := by
  rcases changes_links h.toListed hr.fresh with ⟨settings, rfl⟩ | hc
  · exact hr
  · rw [hc.settings]
    exact hm

/-- Requests that neither enter an item nor put one into a container. -/
def Loosening : Request → Prop
  | operation (.insert _) | operation (.add ..) | operation (.move ..) => False
  | _ => True

/-- **Such a request ends memberships at most**, apart from taking an item out. -/
theorem loosened_after {r : Request} (hr : r.Loosening) (c : Cabinet) :
    Loosened c (r.after c) ∨ ∃ c' id, Loosened c c' ∧ r.after c = c'.eraseItem id := by
  cases r with
  | configure settings => exact .inl ⟨id, fun _ => rfl⟩
  | onAdd p parent child =>
    rw [after, perform, Edit.on_bind_pure]
    exact .inl (p.regranted_onAdd parent child c).loosened
  | onRemove p parent child =>
    rw [after, perform, Edit.on_bind_pure]
    exact .inl (p.regranted_onRemove parent child c).loosened
  | operation op =>
    change Loosened c (op.after c) ∨ ∃ c' id, Loosened c c' ∧ op.after c = c'.eraseItem id
    cases op with
    | insert item => exact hr.elim
    | add parent child a => exact hr.elim
    | move item origin target acting unrestricted now => exact hr.elim
    | remove parent child p =>
      rw [Operation.after_remove]
      exact .inl (ending_loosened.remove parent child p c)
    | mark key deleted now =>
      rcases Operation.after_mark c key deleted now with hm | ⟨e, hm⟩ <;> rw [hm]
      · exact .inl (.refl c)
      · exact .inl ⟨holds_markEdge.mp, fun _ => rfl⟩
    | setDeleted id deleted =>
      rcases Operation.after_setDeleted c id deleted with hm | hm <;> rw [hm]
      · exact .inl (.refl c)
      · exact .inl (.modifyItem c id fun _ => rfl)
    | setAccess id access =>
      rcases Operation.after_setAccess c id access with hm | hm <;> rw [hm]
      · exact .inl (.refl c)
      · exact .inl (.modifyItem c id fun _ => rfl)
    | destroy id =>
      rw [Operation.after_destroy]
      rcases ending_loosened.destroy id c with hd | ⟨c', hl, hd⟩
      · exact .inl hd
      · exact .inr ⟨c', id, hl, hd⟩
    | flush => exact .inl (.flushDeferred c)

/-- **Every such request leaves nothing to convert.** -/
theorem assimilated_after {r : Request} (h : c.Orderly) (hr : r.Converting c) (hc : Settled c) :
    (r.after c).Assimilated := by
  have ha := hc.assimilated
  have hloose : r.Loosening → (r.after c).Assimilated := by
    intro hl
    rcases loosened_after hl c with hl | ⟨c', id, hl, hd⟩
    · exact hl.assimilated ha
    · rw [hd]
      exact (hl.assimilated ha).eraseItem id
  cases r with
  | operation op =>
    cases op with
    | insert item => exact ha.insertItem h.toCoherent (SortedMap.contains_eq_false_iff.mp hr)
    | add parent child a =>
      show (Operation.after _ c).Assimilated
      rw [Operation.after_add]
      rcases h.toSound.on_add_converting h.toAccounted parent child hr with
        hadd | ⟨c', hadd, _, hjoins⟩ <;> rw [hadd]
      · exact ha
      · exact hjoins.assimilated ha
    | move item origin target acting unrestricted now =>
      show (Operation.after _ c).Assimilated
      rw [Operation.after_move]
      have hl := ending_loosened.remove origin item c.settings.movePolicy c
      rcases h.toSound.on_move_converting h.toAccounted item origin target acting unrestricted now
        hc.moves rfl with hm | ⟨_, rfl, hm | hjoins⟩
      · rw [hm]
        exact ha
      · rw [hm]
        exact hl.assimilated ha
      · exact hjoins.assimilated (hl.assimilated ha)
    | _ => exact hloose trivial
  | _ => exact hloose trivial

/-! ## Runs -/

section Run

variable {settings : Settings} {epoch : Epoch} {l : List Request}

theorem settled_afterAll (hmoves : settings.movePolicy.convertsKinds = true)
    (hl : AllAllowed Converting l (.empty settings epoch))
    (hn : linksAll l (.empty settings epoch) < 2 ^ 64 - 1) :
    (afterAll l (.empty settings epoch)).Orderly ∧
      Settled (afterAll l (.empty settings epoch)) := by
  have hlast := linksAll_lt hn
  have hstart : Settled (.empty settings epoch) := by
    exact ⟨hmoves, fun p x k hh => absurd hh (not_holds_empty settings epoch)⟩
  obtain ⟨ho, hs, _⟩ := invariant_afterAll Converting.fresh
    (fun ho hr _ hs => ⟨moves_after ho hr hs.moves, assimilated_after ho hr hs⟩)
    (orderly_empty settings epoch) hstart hl hlast
  exact ⟨ho, hs⟩

/-- **Sharing areas hold no plain folder or notebook.**  In every run from an empty cabinet in which
additions and moves convert kinds, no member of a container in a sharing area is one, whichever way
one asks for its members.  And every addition after such a run either changes nothing, or makes a
new edge, of which it tells, and then exactly the item that was added and what is below it take the
shared variants of their kinds, if the container belongs to a sharing area, and no kind changes
otherwise; a move either makes no edge and changes no kind, or does the same. -/
theorem sharing_areas_converted (hmoves : settings.movePolicy.convertsKinds = true)
    (hl : AllAllowed Converting l (.empty settings epoch))
    (hn : linksAll l (.empty settings epoch) < 2 ^ 64 - 1)
    (hc : afterAll l (.empty settings epoch) = c) :
    (∀ p x i j, (x ∈ c.children p ∨ p ∈ c.parents x ∨ c.isMember ⟨x, p⟩ = true) →
        c.item? p = some i → i.isShared = true → c.item? x = some j →
        j.kind ≠ .container .folder ∧ j.kind ≠ .container .notebook) ∧
      (∀ (parent child : ItemId) (a : Addition), a.propagation.convertsKinds = true →
        ((add parent child a).on c).2 = c ∨
          ∃ c', (add parent child a).on c = (.ok (.added c.nextEdge), c') ∧
            ¬c.Holds parent child ∧ c.Joins parent child c') ∧
      ∀ (item origin target : ItemId) (acting : Principal) (unrestricted : Bool) (now : Timestamp)
        (c' : Cabinet), ((move item origin target acting unrestricted now).on c).2 = c' →
          ∃ c₁, Loosened c c₁ ∧ (c' = c₁ ∨ c₁.Joins target item c') := by
  subst hc
  obtain ⟨ho, hs⟩ := settled_afterAll hmoves hl hn
  refine ⟨fun p x i j hm hi hshared hj => ?members,
    fun parent child a hconv => ho.toSound.on_add_converting ho.toAccounted parent child hconv,
    fun item origin target acting unrestricted now c' hc' => ?moves⟩
  case members =>
    have hpx : (afterAll l (.empty settings epoch)).Holds p x := by
      rcases hm with hm | hm | hm
      · exact ho.mem_children_iff.mp hm
      · exact ho.mem_parents_iff.mp hm
      · exact ho.isMember_iff.mp hm
    have hkind := hs.assimilated p x j.kind hpx
      ⟨i.kind, congrArg (Option.map Item.kind) hi, hshared⟩ (congrArg (Option.map Item.kind) hj)
    constructor <;> intro hk <;> rw [hk] at hkind <;> cases hkind
  case moves =>
    rcases ho.toSound.on_move_converting ho.toAccounted item origin target acting unrestricted now
      hs.moves hc' with rfl | ⟨_, rfl, hm⟩
    · exact ⟨_, .refl _, .inl rfl⟩
    · exact ⟨_, ending_loosened.remove .., hm⟩

/-- A folder with a notebook in it, and the top of a sharing area; the folder is put into a system
container, and that into the area. -/
def joining : List Request :=
  [.insert (.bare 1 (.container .sharedRoot) []), .insert (.bare 2 (.container .system) []),
    .insert (.bare 3 (.container .folder) []), .insert (.bare 4 (.container .notebook) []),
    .add (.ofNat 3) (.ofNat 4) (.bare .null), .add (.ofNat 2) (.ofNat 3) (.bare .inherit),
    .add (.ofNat 1) (.ofNat 2) (.bare .notFromContainers)].map operation

/-- The system container stays what it is, and the folder and the notebook below it do not. -/
theorem sharing_areas_converted_joining : ∃ c, afterAll joining (.empty .standard 0) = c ∧
    (c.kind? (.ofNat 2) = some (.container .system) ∧
      c.kind? (.ofNat 3) = some (.container .sharedFolder) ∧
      c.kind? (.ofNat 4) = some (.container .sharedNotebook)) ∧
    (∀ p x i j, (x ∈ c.children p ∨ p ∈ c.parents x ∨ c.isMember ⟨x, p⟩ = true) →
      c.item? p = some i → i.isShared = true → c.item? x = some j →
      j.kind ≠ .container .folder ∧ j.kind ≠ .container .notebook) := by
  have hl : AllAllowed Converting joining (.empty .standard 0) :=
    ⟨rfl, rfl, rfl, rfl, rfl, rfl, rfl, trivial⟩
  have hn : linksAll joining (.empty .standard 0) ≤ 7 := linksAll_le_length ..
  refine ⟨_, rfl, ⟨by cbv, by cbv, by cbv⟩, ?_⟩
  exact (sharing_areas_converted rfl hl (by omega) rfl).1

end Run

end Request

end Filing
