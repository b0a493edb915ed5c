import Filing.Proofs.Deferral

/-!
# Publication is nobody's inheritance

A grant to everybody publishes an item.  Grants flow down when an item is added to a container and
are taken back when it is removed, but those to everybody stay where they were given: what is on its
way to an item, and what is about to be taken from it, never contains one.  So whoever wants to know
why an item is public need look no further than at what was done to its own grants.

* `Request.samePublic_after`: **a request leaves the public grants of every item alone**, except of
  the one that it inserts, destroys or gives grants to; on every cabinet, in order or not, and also
  where it fails half-way.
* `publicGrants_as_given`: **in every run from an empty cabinet an item has the public grants that
  it was inserted with, as changed by what was given to and taken from the item itself** (`given`).
-/

namespace Filing

open Cabinet

/-! ## Private grants -/

namespace AccessList

variable {a b : AccessList}

/-- No grant of the list publishes anything. -/
def IsPrivate (a : AccessList) : Prop := ∀ g ∈ a, g.isPublic = false

theorem mem_publicPart {g : Grant} : g ∈ publicPart a ↔ g ∈ a ∧ g.isPublic = true :=
  SortedSet.mem_filter

theorem isPrivate_withoutPublic (a : AccessList) : IsPrivate (withoutPublic a) := fun g hg => by
  simpa using (SortedSet.mem_filter.mp hg).2

theorem IsPrivate.diff (h : IsPrivate a) (b : AccessList) : IsPrivate (a.diff b) := fun g hg =>
  h g (SortedSet.mem_diff.mp hg).1

theorem publicPart_union (h : IsPrivate b) : publicPart (a.union b) = publicPart a := by
  refine SortedSet.ext fun g => ?_
  have hb : g.isPublic = true → g ∉ b := fun hg hm => by simp [h g hm] at hg
  rw [mem_publicPart, mem_publicPart, SortedSet.mem_union]
  tauto

theorem publicPart_diff (h : IsPrivate b) : publicPart (a.diff b) = publicPart a := by
  refine SortedSet.ext fun g => ?_
  have hb : g.isPublic = true → g ∉ b := fun hg hm => by simp [h g hm] at hg
  rw [mem_publicPart, mem_publicPart, SortedSet.mem_diff]
  tauto

end AccessList

/-- The grants that publish an item. -/
def Item.publicGrants (i : Item) : AccessList := AccessList.publicPart i.access

/-! ## Cabinets with the same public grants -/

namespace Cabinet

variable {c c' c'' : Cabinet} {id : ItemId} {i : Item}

/-- The same items are stored, with the same public grants. -/
def SamePublic (c c' : Cabinet) : Prop :=
  ∀ id, (c'.item? id).map Item.publicGrants = (c.item? id).map Item.publicGrants

namespace SamePublic

theorem refl (c : Cabinet) : SamePublic c c := fun _ => rfl

theorem trans (h : SamePublic c c') (h' : SamePublic c' c'') : SamePublic c c'' := fun id =>
  (h' id).trans (h id)

theorem of_item? {f : ItemId → Item → Item} (h : ∀ id, c'.item? id = (c.item? id).map (f id))
    (hf : ∀ id i, (f id i).publicGrants = i.publicGrants) : SamePublic c c' :=
  map_item?_of_map h hf

theorem modifyItem (c : Cabinet) (id : ItemId) {f : Item → Item}
    (hf : ∀ i, (f i).publicGrants = i.publicGrants) : SamePublic c (c.modifyItem id f) :=
  fun j => map_item?_modifyItem c id j f hf

theorem setAccess (hi : c.item? id = some i) {a : AccessList}
    (ha : AccessList.publicPart a = i.publicGrants) : SamePublic c (c.setAccess id a) := fun j => by
  rw [item?_setAccess]
  split
  · next h =>
    rw [h, hi]
    exact congrArg some ha
  · rfl

theorem withEdge (c : Cabinet) (key : Membership) (owner : Principal) (defer : Bool)
    (now : Timestamp) : SamePublic c (c.withEdge key owner defer now) :=
  of_item? (item?_withEdge c key owner defer now) fun _ _ => rfl

theorem unlink? {key : Membership} (h : c.unlink? key = some c') : SamePublic c c' := by
  obtain ⟨e, hu⟩ := unlinked_of_unlink? h
  exact of_item? hu.item? fun _ _ => rfl

theorem share (c : Cabinet) (id : ItemId) (kind : ContainerKind) :
    SamePublic c (c.share id kind) := by
  rw [Cabinet.share]
  split
  · exact refl c
  · refine modifyItem c id fun i => ?_
    rw [Item.withContainerKind]
    split <;> rfl

end SamePublic

theorem isPrivate_passedOn (c : Cabinet) (i : Item) : AccessList.IsPrivate (c.passedOn i) :=
  fun _ hg => (mem_passedOn_iff.mp hg).2.1

end Cabinet

/-! ## Grants that flow -/

section Flow

variable {c : Cabinet}

/-- No public grant is on its way. -/
def Pending.IsPrivate (q : Pending) : Prop := ∀ id g, q.Brings id g → g.isPublic = false

theorem Pending.IsPrivate.passOn {q : Pending} (h : q.IsPrivate) (c : Cabinet) (top : ItemId)
    (reach : Reach) (id : ItemId) (i : Item) : (c.passOn top reach id i q).IsPrivate := by
  have herase : Pending.IsPrivate (q.erase id) := fun x g hb => h x g (Pending.brings_erase.mp hb).2
  rw [Cabinet.passOn]
  split
  · intro x g hb
    rcases (Pending.brings_foldl _ _).mp hb with hb | ⟨_, hg⟩
    · exact herase x g hb
    · exact c.isPrivate_passedOn i g hg
  · exact herase

theorem samePublic_pour (top : ItemId) (reach : Reach) (l : List ItemId) {q : Pending}
    (h : q.IsPrivate) (c : Cabinet) : SamePublic c ((pour top reach l q).on c).2 := by
  induction l generalizing q c with
  | nil => exact .refl c
  | cons id rest ih =>
    cases hq : q.find? id with
    | none =>
      rw [on_pour_of_none hq]
      exact ih h c
    | some grants =>
      cases hi : c.item? id with
      | none =>
        rw [on_pour_of_missing hq hi]
        exact .refl c
      | some i =>
        rw [on_pour_of_some hq hi]
        have hgrants : AccessList.IsPrivate grants := fun g hg => h id g ⟨grants, hq, hg⟩
        exact (SamePublic.setAccess hi (AccessList.publicPart_union hgrants)).trans
          (ih (h.passOn c top reach id _) _)

theorem samePublic_mergeDown (parent child : ItemId) (reach : Reach) (c : Cabinet) :
    SamePublic c ((mergeDown parent child reach).on c).2 := by
  cases hi : c.item? parent with
  | none =>
    rw [on_mergeDown_of_none hi]
    exact .refl c
  | some i =>
    rw [on_mergeDown hi]
    refine samePublic_pour _ _ _ (fun x g hb => ?_) c
    obtain ⟨a, ha, hg⟩ := hb
    rw [SortedMap.find?_insert] at ha
    split at ha
    · cases ha
      exact c.isPrivate_passedOn i g hg
    · cases ha

/-- **No public grant is taken back** where none is up for it. -/
theorem samePublic_drain {candidates : AccessList} (h : AccessList.IsPrivate candidates)
    (l : List ItemId) (c : Cabinet) : SamePublic c ((drain candidates l).on c).2 := by
  induction l generalizing c with
  | nil => exact .refl c
  | cons id rest ih =>
    rcases on_drain_cases candidates id rest c with hd | ⟨_, _, hd⟩ | ⟨supplied, i, _, hi, hd⟩ <;>
      rw [hd]
    · exact .refl c
    · exact ih c
    · exact (SamePublic.setAccess hi (AccessList.publicPart_diff (h.diff supplied))).trans (ih _)

namespace Propagation

variable (p : Propagation) (parent child : ItemId) (c : Cabinet)

theorem samePublic_onAdd : SamePublic c ((p.onAdd parent child).on c).2 := by
  cases p with
  | null => exact .refl c
  | inherit => exact samePublic_mergeDown parent child .subtree c
  | share => exact samePublic_mergeDown parent child .oneLevel c
  | notFromContainers => exact samePublic_mergeDown parent child .subtree c

theorem samePublic_onRemove : SamePublic c ((p.onRemove parent child).on c).2 := by
  rcases p.on_onRemove_cases parent child c with h | ⟨reach, h⟩ <;> rw [h]
  · exact .refl c
  · rcases on_retractDown_cases parent child reach c with h | ⟨common, l, h⟩ <;> rw [h]
    · exact .refl c
    · exact samePublic_drain (AccessList.isPrivate_withoutPublic common) l c

end Propagation

theorem Cabinet.SamePublic.steady : Steady SamePublic where
  refl := refl
  trans := trans
  share := share
  onAdd := Propagation.samePublic_onAdd
  withEdge := withEdge
  unlink? := unlink?
  onRemove := Propagation.samePublic_onRemove

end Flow

/-! ## Requests -/

namespace Request

/-- The request inserts the item, destroys it or gives grants to it. -/
def Edits : Request → ItemId → Prop
  | operation (.insert item), id => item.id = id
  | operation (.setAccess j _), id => j = id
  | operation (.destroy j), id => j = id
  | _, _ => False

/-- **A request leaves the public grants of all other items alone.** -/
theorem samePublic_after (r : Request) (c : Cabinet) {id : ItemId} (h : ¬r.Edits id) :
    ((r.after c).item? id).map Item.publicGrants = (c.item? id).map Item.publicGrants := by
  cases r with
  | configure settings => rfl
  | onAdd p parent child =>
    rw [after, perform, Edit.on_bind_pure]
    exact p.samePublic_onAdd parent child c id
  | onRemove p parent child =>
    rw [after, perform, Edit.on_bind_pure]
    exact p.samePublic_onRemove parent child c id
  | operation op =>
    show ((op.after c).item? id).map _ = _
    cases op with
    | insert item =>
      show ((c.insertItem item).item? id).map _ = _
      rw [item?_insertItem, if_neg fun heq => h heq.symm]
    | add parent child a =>
      rw [Operation.after_add]
      exact SamePublic.steady.add parent child a c id
    | remove parent child p =>
      rw [Operation.after_remove]
      exact SamePublic.steady.remove parent child p c id
    | move item origin target acting unrestricted now =>
      rw [Operation.after_move]
      exact SamePublic.steady.move item origin target acting unrestricted now c id
    | mark key deleted now =>
      rcases Operation.after_mark c key deleted now with hm | ⟨e, hm⟩ <;> rw [hm]
      rfl
    | setDeleted j deleted =>
      rcases Operation.after_setDeleted c j deleted with hm | hm <;> rw [hm]
      refine SamePublic.modifyItem c j ?_ id
      exact fun _ => rfl
    | setAccess j access =>
      rcases Operation.after_setAccess c j access with hm | hm <;> rw [hm]
      rw [item?_setAccess, if_neg fun heq => h heq.symm]
    | destroy j =>
      rw [Operation.after_destroy]
      rcases SamePublic.steady.destroy j c with hd | ⟨c', hsame, hd⟩
      · exact hd id
      · rw [hd, item?_eraseItem, if_neg fun heq => h heq.symm]
        exact hsame id
    | flush => exact SamePublic.of_item? (item?_flushDeferred c) (fun _ _ => rfl) id

/-! ## Runs -/

/-- What was given to items themselves, after one more request: an item is inserted with its public
grants, and its list may be replaced by another, which takes some of them and gives others. -/
def given (r : Request) (c : Cabinet) (g : ItemId → AccessList) : ItemId → AccessList :=
  match r with
  | operation (.insert item) => fun id => if id = item.id then item.publicGrants else g id
  | operation (.setAccess j access) => fun id =>
    match c.item? j with
    | none => g id
    | some i =>
      if id = j then
        ((g id).diff (i.access.diff access)).union (AccessList.publicPart (access.diff i.access))
      else g id
  | _ => g

theorem given_of_not_edits {r : Request} {c : Cabinet} {g : ItemId → AccessList} {id : ItemId}
    (h : ¬r.Edits id) : r.given c g id = g id := by
  cases r with
  | operation op =>
    cases op with
    | insert item => exact if_neg fun heq => h heq.symm
    | setAccess j access =>
      simp only [given]
      split
      · rfl
      · exact if_neg fun heq => h heq.symm
    | _ => rfl
  | _ => rfl

/-- The cabinet that a list of requests leaves. -/
def afterAll (l : List Request) (c : Cabinet) : Cabinet := l.foldl (fun c r => r.after c) c

/-- What was given to items themselves in the course of a list of requests. -/
def givenAll : List Request → Cabinet → (ItemId → AccessList) → ItemId → AccessList
  | [], _, g => g
  | r :: rest, c, g => givenAll rest (r.after c) (r.given c g)

end Request

/-- The public grants of every item are those that were given to it. -/
def Cabinet.Given (c : Cabinet) (g : ItemId → AccessList) : Prop :=
  ∀ id i, c.item? id = some i → i.publicGrants = g id

theorem AccessList.publicPart_replace (a b : AccessList) :
    ((publicPart a).diff (a.diff b)).union (publicPart (b.diff a)) = publicPart b := by
  refine SortedSet.ext fun g => ?_
  simp only [SortedSet.mem_union, SortedSet.mem_diff, mem_publicPart]
  tauto

/-- **One request**: the account stays right. -/
theorem Request.given_after (r : Request) {c : Cabinet} {g : ItemId → AccessList}
    (h : c.Given g) : (r.after c).Given (r.given c g) := by
  intro id i hi
  by_cases he : r.Edits id
  · cases r with
    | operation op =>
      cases op with
      | insert item =>
        obtain rfl : item.id = id := he
        have hitem : (c.insertItem item).item? item.id = some i := hi
        rw [item?_insertItem, if_pos rfl] at hitem
        cases hitem
        exact (if_pos rfl).symm
      | setAccess j access =>
        obtain rfl : j = id := he
        have hon : (Operation.setAccess j access).perform.on c = _ :=
          Operation.on_setAccess c j access
        have hitem : ((Operation.setAccess j access).perform.on c).2.item? j = some i := hi
        rw [hon] at hitem
        cases hj : c.item? j with
        | none =>
          rw [item_of_none hj] at hitem
          cases hj.symm.trans hitem
        | some k =>
          rw [item_of_some hj] at hitem
          dsimp only at hitem
          rw [item?_setAccess, if_pos rfl, hj] at hitem
          cases hitem
          simp only [given, hj, if_true]
          rw [← h j k hj]
          exact (AccessList.publicPart_replace _ _).symm
      | destroy j =>
        obtain rfl : j = id := he
        have hitem : ((Operation.destroy j).after c).item? j = some i := hi
        rw [Operation.after_destroy] at hitem
        rcases SamePublic.steady.destroy j c with hd | ⟨c', _, hd⟩
        · have hsame := hd j
          rw [hitem] at hsame
          obtain ⟨k, hk, heq⟩ := Option.map_eq_some_iff.mp hsame.symm
          exact heq.symm.trans (h j k hk)
        · rw [hd, item?_eraseItem, if_pos rfl] at hitem
          cases hitem
      | _ => exact he.elim
    | _ => exact he.elim
  · have hsame := r.samePublic_after c he
    rw [hi] at hsame
    obtain ⟨k, hk, heq⟩ := Option.map_eq_some_iff.mp hsame.symm
    rw [given_of_not_edits he, ← h id k hk]
    exact heq.symm

theorem Request.given_afterAll (l : List Request) {c : Cabinet} {g : ItemId → AccessList}
    (h : c.Given g) : (afterAll l c).Given (givenAll l c g) := by
  induction l generalizing c g with
  | nil => exact h
  | cons r rest ih => exact ih (r.given_after h)

/-- **An item has the public grants that it was inserted with, as changed by what was done to its
own grants**, in every run from an empty cabinet; and no other request adds or removes one. -/
theorem publicGrants_as_given (settings : Settings) (epoch : Epoch) :
    (∀ (l : List Request) (id : ItemId) (i : Item),
      (Request.afterAll l (.empty settings epoch)).item? id = some i →
        i.publicGrants = Request.givenAll l (.empty settings epoch) (fun _ => ∅) id) ∧
    ∀ (c : Cabinet) (r : Request) (id : ItemId), ¬r.Edits id →
      ((r.after c).item? id).map Item.publicGrants = (c.item? id).map Item.publicGrants := by
  refine ⟨fun l => Request.given_afterAll l ?_, fun c r id h => r.samePublic_after c h⟩
  intro id i hi
  exact absurd hi.symm (Option.some_ne_none _)

/-- A document is put into a public folder that ann may read too, and is made public itself. -/
def Request.airing : List Request :=
  (Operation.filing [⟨.anonymous, ⟨"READ"⟩⟩, ⟨.user "ann", ⟨"READ"⟩⟩]).map .operation ++
    [.operation (.setAccess (.ofNat 2)
      (.ofList [⟨.anonymous, ⟨"READ"⟩⟩, ⟨.user "ann", ⟨"READ"⟩⟩]))]

/-- The cabinet that comes of it. -/
def Cabinet.aired : Cabinet := Request.afterAll Request.airing (.empty .standard 0)

/-- The document is taken out again. -/
def Request.withdrawal : Request := .operation (.remove (.ofNat 1) (.ofNat 2) .inherit)

/-- The grant that it got from the folder goes then, and the public one stays. -/
theorem publicGrants_as_given_airing :
    (∃ i, aired.item? (.ofNat 2) = some i ∧
        i.access = .ofList [⟨.anonymous, ⟨"READ"⟩⟩, ⟨.user "ann", ⟨"READ"⟩⟩] ∧
        i.publicGrants =
          Request.givenAll Request.airing (.empty .standard 0) (fun _ => ∅) (.ofNat 2)) ∧
      (∃ i, (Request.withdrawal.after aired).item? (.ofNat 2) = some i ∧
        i.access = .ofList [⟨.anonymous, ⟨"READ"⟩⟩]) ∧
      ¬Request.withdrawal.Edits (.ofNat 2) ∧
      ((Request.withdrawal.after aired).item? (.ofNat 2)).map Item.publicGrants =
        (aired.item? (.ofNat 2)).map Item.publicGrants := by
  have hi : aired.item? (.ofNat 2) = some
      { Item.bare 2 .document [⟨.anonymous, ⟨"READ"⟩⟩, ⟨.user "ann", ⟨"READ"⟩⟩] with
        parentEdges := [⟨1⟩] } := by cbv
  have hi' : (Request.withdrawal.after aired).item? (.ofNat 2) = some
      (Item.bare 2 .document [⟨.anonymous, ⟨"READ"⟩⟩]) := by cbv
  have hn : ¬Request.withdrawal.Edits (.ofNat 2) := fun h => h
  obtain ⟨hrun, hstep⟩ := publicGrants_as_given .standard 0
  exact ⟨⟨_, hi, rfl, hrun Request.airing _ _ hi⟩, ⟨_, hi', rfl⟩, hn,
    hstep aired Request.withdrawal _ hn⟩

end Filing
