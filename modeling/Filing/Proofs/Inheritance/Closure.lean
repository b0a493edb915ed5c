import Filing.Proofs.Inheritance.Sharing

/-!
# What additions come to

Detached items are added to containers one after the other, and each addition passes on whatever
grants have come together so far.  In the end **every item has the grants that it started with and
the private ones that the items above it started with**, and nothing else (`access_of_merging`), so
the order of the additions makes no difference.

* That an item has these grants is what `Complete` says of one membership, followed upwards.
* That it has no others is an invariant of the run (`Sourced`): what an item gains a container of it
  offers, and that has its grants from above or from the start.

No container may belong to a sharing area, since a shared notebook keeps grants to itself.
-/

namespace Filing

open Cabinet Relation

variable {c₀ c c' : Cabinet} {n : Nat}

/-! ## Detached items -/

/-- There are items, and there is no membership. -/
structure Cabinet.Scattered (c : Cabinet) : Prop where
  edges : ∀ e, c.edge? e = none
  index : ∀ key, c.index.find? key = none
  deferred : c.deferred = []
  item_id : ∀ {id i}, c.item? id = some i → i.id = id
  listsNothing : ∀ {id i}, c.item? id = some i → i.parentEdges = [] ∧ i.childEdges = []

namespace Cabinet

theorem scattered_empty (settings : Settings) (epoch : Epoch) :
    (empty settings epoch).Scattered where
  edges _ := rfl
  index _ := rfl
  deferred := rfl
  item_id h := absurd h.symm (Option.some_ne_none _)
  listsNothing h := absurd h.symm (Option.some_ne_none _)

theorem Scattered.insertItem (h : c.Scattered) (item : Item) : (c.insertItem item).Scattered where
  edges := h.edges
  index := h.index
  deferred := h.deferred
  item_id {id i} hi := by
    rw [item?_insertItem] at hi
    split at hi
    · next hid =>
      cases hi
      exact hid.symm
    · exact h.item_id hi
  listsNothing {id i} hi := by
    rw [item?_insertItem] at hi
    split at hi
    · cases hi
      exact ⟨rfl, rfl⟩
    · exact h.listsNothing hi

namespace Scattered

theorem not_holds (h : c.Scattered) {p x : ItemId} : ¬c.Holds p x := by
  rintro ⟨e, edge, he, _⟩
  cases (h.edges e).symm.trans he

theorem sound (h : c.Scattered) : c.Sound := by
  have hedge : ∀ {e edge}, c.edge? e ≠ some edge := fun he => by cases (h.edges _).symm.trans he
  have hparent : ∀ {id i e}, c.item? id = some i → e ∉ i.parentEdges := fun hi hm => by
    rw [(h.listsNothing hi).1] at hm
    cases hm
  have hchild : ∀ {id i e}, c.item? id = some i → e ∉ i.childEdges := fun hi hm => by
    rw [(h.listsNothing hi).2] at hm
    cases hm
  exact
    { parent_stored := fun hi hm => absurd hm (hparent hi)
      parent_nodup := fun hi => (h.listsNothing hi).1 ▸ List.nodup_nil
      child_stored := fun hi hm => absurd hm (hchild hi)
      child_nodup := fun hi => (h.listsNothing hi).2 ▸ List.nodup_nil
      deferred_stored := fun hm => absurd (h.deferred ▸ hm) List.not_mem_nil
      deferred_nodup := h.deferred ▸ List.nodup_nil
      child_not_deferred := fun hi hm => absurd hm (hchild hi)
      parent_listed := fun he => absurd he hedge
      child_listed := fun he => absurd he hedge
      edge_id := fun he => absurd he hedge
      index_iff := fun {key e} => by
        rw [h.index]
        exact ⟨nofun, fun ⟨_, he, _⟩ => absurd he hedge⟩
      item_id := h.item_id
      container_isContainer := fun he => absurd he hedge
      acyclic := fun id hid => by
        obtain ⟨_, hh, _⟩ := TransGen.head'_iff.mp hid
        exact h.not_holds hh }

theorem orderly (h : c.Scattered) : c.Orderly where
  toSound := h.sound
  number_lt he := by cases (h.edges _).symm.trans he
  size_eq := h.sound.size_eq

end Scattered

/-! ## Where grants come from -/

/-- The grant was on the item at the start, or it is private and was on an item above. -/
def Sourced (c₀ c : Cabinet) (id : ItemId) (g : Grant) : Prop :=
  c₀.Has id g ∨ g.isPublic = false ∧ ∃ a, TransGen c.Holds a id ∧ c₀.Has a g

theorem Sourced.mono (h : ∀ p x, c.Holds p x → c'.Holds p x) {id : ItemId} {g : Grant}
    (hs : Sourced c₀ c id g) : Sourced c₀ c' id g := by
  refine hs.imp_right ?_
  rintro ⟨hpriv, a, ha, hg⟩
  exact ⟨hpriv, a, TransGen.mono h a id ha, hg⟩

/-- **What a container has is sourced at its members**, if it is private. -/
theorem Sourced.down {p x : ItemId} {g : Grant} (hs : Sourced c₀ c p g) (hpx : c.Holds p x)
    (hpriv : g.isPublic = false) : Sourced c₀ c x g := by
  rcases hs with hg | ⟨_, a, ha, hg⟩
  · exact .inr ⟨hpriv, p, .single hpx, hg⟩
  · exact .inr ⟨hpriv, a, ha.tail hpx, hg⟩

/-- **What is gained is sourced**, since it comes from containers. -/
theorem Inherits.sourced (h : Inherits c c') (hs : c'.Sound)
    (hh : ∀ p x, c.Holds p x → c'.Holds p x) (hall : ∀ x g, c.Has x g → Sourced c₀ c x g)
    (x : ItemId) (g : Grant) (hx : c'.Has x g) : Sourced c₀ c' x g := by
  induction x using hs.holds_induction with
  | hstep x ih =>
    rcases h.gained hx with hold | ⟨p, hpx, i, hi, hg⟩
    · exact (hall x g hold).mono hh
    · obtain ⟨hga, hpriv, _⟩ := mem_passedOn_iff.mp hg
      exact (ih p hpx ⟨i, hi, hga⟩).down hpx hpriv

theorem access_eq_of_has_iff {id : ItemId} (hk : c'.kind? id = c.kind? id)
    (h : ∀ g, c'.Has id g ↔ c.Has id g) :
    (c'.item? id).map Item.access = (c.item? id).map Item.access := by
  cases hi : c.item? id with
  | none =>
    rw [kind?, kind?, hi, Option.map_none, Option.map_eq_none_iff] at hk
    rw [hk]
  | some i =>
    rw [kind?, kind?, hi, Option.map_some] at hk
    obtain ⟨i', hi', _⟩ := Option.map_eq_some_iff.mp hk
    rw [hi', Option.map_some, Option.map_some]
    refine congrArg some (SortedSet.ext fun g => ?_)
    rw [← Cabinet.has_iff hi', ← Cabinet.has_iff hi, h]

theorem item?_eq_of_has_iff {id : ItemId}
    (hu : (c'.item? id).map Item.ungranted = (c.item? id).map Item.ungranted)
    (h : ∀ g, c'.Has id g ↔ c.Has id g) : c'.item? id = c.item? id := by
  cases hi : c.item? id with
  | none =>
    rw [hi] at hu
    exact Option.map_eq_none_iff.mp hu
  | some i =>
    rw [hi, Option.map_some] at hu
    obtain ⟨i', hi', hi'i⟩ := Option.map_eq_some_iff.mp hu
    have haccess : i'.access = i.access := SortedSet.ext fun g => by
      rw [← Cabinet.has_iff hi', ← Cabinet.has_iff hi, h]
    rw [hi']
    cases i
    cases i'
    cases hi'i
    cases haccess
    rfl

/-- What has come of a cabinet: the same items with the same kinds, with their grants and sourced
ones, and every member has what is passed on to it. -/
structure Merged (c₀ c : Cabinet) : Prop where
  kind? : ∀ id, c.kind? id = c₀.kind? id
  kept : ∀ x g, c₀.Has x g → c.Has x g
  sourced : ∀ x g, c.Has x g → Sourced c₀ c x g
  complete : c.Complete

/-- **Grants reach everything below**, where nothing belongs to a sharing area. -/
theorem Merged.has_below (h : Merged c₀ c) (hs : c.Coherent) (hk : ∀ id, ¬c₀.IsShared id)
    {a x : ItemId} {g : Grant} (hpriv : g.isPublic = false) (hax : TransGen c.Holds a x)
    (hg : c₀.Has a g) : c.Has x g := by
  -- what holds the grant passes it on
  have hdown : ∀ {p y}, c.Holds p y → c.Has p g → c.Has y g := by
    rintro p y hpy ⟨i, hi, hgi⟩
    obtain ⟨j, hj⟩ := hs.item_stored hpy
    refine ⟨j, hj, h.complete p y hpy i j hi hj g ?_⟩
    refine mem_passedOn_iff.mpr ⟨hgi, hpriv, fun hcol => ?_⟩
    have hp := isShared_of_isSharedCollection hi hcol
    exact absurd ((isShared_congr (h.kind? p)).mp hp) (hk p)
  induction hax with
  | single hpy => exact hdown hpy (h.kept a g hg)
  | tail _ hpy ih => exact hdown hpy ih

/-- **The grants of an item in closed form.** -/
theorem Merged.has_iff (h : Merged c₀ c) (hs : c.Coherent) (hk : ∀ id, ¬c₀.IsShared id)
    (x : ItemId) (g : Grant) : c.Has x g ↔ Sourced c₀ c x g := by
  refine ⟨h.sourced x g, ?_⟩
  rintro (hg | ⟨hpriv, a, ha, hg⟩)
  · exact h.kept x g hg
  · exact h.has_below hs hk hpriv ha hg

end Cabinet

/-! ## Runs -/

/-- Additions that inherit, and listing deferred edges. -/
def Operation.Merging (_ : Cabinet) : Operation → Prop
  | add _ _ a => a.propagation = .inherit ∨ a.propagation = .notFromContainers
  | flush => True
  | _ => False

theorem Operation.Merging.fresh {op : Operation} (h : op.Merging c) : op.Fresh c := by
  cases op with
  | insert item => exact h.elim
  | _ => trivial

theorem Operation.merged_after {op : Operation} (hop : op.Merging c) (hs : c.Sound)
    (ha : c.Accounted) (hs' : (op.after c).Sound) (hk : ∀ id, ¬c₀.IsShared id) (h : Merged c₀ c) :
    Merged c₀ (op.after c) := by
  cases op with
  | add parent child a =>
    rw [after_add] at hs' ⊢
    have hcomplete : ((Filing.add parent child a).on c).2.Complete :=
      add_complete hop hs ha h.complete
    have hconv : a.propagation.convertsKinds = true := by
      rcases hop with hop | hop <;> rw [hop] <;> rfl
    rcases hs.on_add_converting ha parent child hconv with hadd | ⟨c', hadd, _, hjoins⟩
    · rw [hadd]
      exact h
    · rw [hadd] at hs' hcomplete ⊢
      have hplain : ¬c.IsShared parent := fun hp => hk parent ((isShared_congr (h.kind? _)).mp hp)
      exact
        { kind? := fun id => (hjoins.shares.outside hplain id).trans (h.kind? id)
          kept := fun x g hg => hjoins.inherits.kept (h.kept x g hg)
          sourced := hjoins.inherits.sourced hs' (fun p x hpx => (hjoins.holds p x).mpr (.inl hpx))
            h.sourced
          complete := hcomplete }
  | flush =>
    show Merged c₀ c.flushDeferred.1
    have hhas : ∀ {x g}, c.flushDeferred.1.Has x g ↔ c.Has x g :=
      has_congr (map_item?_of_map (item?_flushDeferred c) (fun _ _ => rfl) _)
    exact
      { kind? := fun id => ((Loosened.flushDeferred c).kind? id).trans (h.kind? id)
        kept := fun x g hg => hhas.mpr (h.kept x g hg)
        sourced := fun x g hg =>
          (h.sourced x g (hhas.mp hg)).mono fun _ _ => holds_flushDeferred.mpr
        complete := h.complete.flushDeferred }
  | _ => exact hop.elim

theorem Cabinet.Scattered.merged (h₀ : c₀.Scattered) (hk : ∀ id, ¬c₀.IsShared id)
    (h : Reached Operation.Merging c₀ n c) (hn : c₀.nextEdge.toNat + n < 2 ^ 64) :
    c.Sound ∧ Merged c₀ c := by
  have hsound : ∀ {m d}, Reached Operation.Merging c₀ m d → c₀.nextEdge.toNat + m < 2 ^ 64 →
      d.Sound ∧ d.Accounted := fun hr hm => by
    have hc := (hr.mono fun _ _ => Operation.Merging.fresh).changes h₀.orderly.toAccounted hm
    exact ⟨hc.sound h₀.sound h₀.orderly.toAccounted hm, (hc.accounted h₀.orderly.toAccounted hm).1⟩
  refine ⟨(hsound h hn).1, ?_⟩
  induction h with
  | start =>
    exact ⟨fun _ => rfl, fun _ _ hg => hg, fun _ _ hg => .inl hg,
      fun p x hpx => absurd hpx h₀.not_holds⟩
  | @step m d op hr hop ih =>
    obtain ⟨hs, ha⟩ := hsound hr (by omega)
    exact op.merged_after hop hs ha (hsound (hr.step op hop) hn).1 hk (ih (by omega))

/-- **The grants after a run of additions.**  The same items are stored as at the start; each of
them has the grants that it had then, the private ones that the items above it had then, and no
others; and any two runs that end with the same memberships, in whatever order they came about, end
with the same access lists. -/
theorem access_of_merging (h₀ : c₀.Scattered) (hk : ∀ id, ¬c₀.IsShared id)
    (h : Reached Operation.Merging c₀ n c) (hn : c₀.nextEdge.toNat + n < 2 ^ 64) :
    (∀ id, (∃ i, c.item? id = some i) ↔ ∃ i, c₀.item? id = some i) ∧
      (∀ id g, c.Has id g ↔
        c₀.Has id g ∨ g.isPublic = false ∧ ∃ a, TransGen c.Holds a id ∧ c₀.Has a g) ∧
      ∀ m c', Reached Operation.Merging c₀ m c' → c₀.nextEdge.toNat + m < 2 ^ 64 →
        (∀ p id, c'.Holds p id ↔ c.Holds p id) →
        ∀ id, (c'.item? id).map Item.access = (c.item? id).map Item.access := by
  obtain ⟨hs, hm⟩ := h₀.merged hk h hn
  refine ⟨fun id => ?stored, hm.has_iff hs.toCoherent hk, fun m c' h' hn' hh id => ?order⟩
  case stored =>
    have hkind := congrArg Option.isSome (hm.kind? id)
    rwa [kind?, kind?, Option.isSome_map, Option.isSome_map, Bool.eq_iff_iff,
      Option.isSome_iff_exists, Option.isSome_iff_exists] at hkind
  case order =>
    obtain ⟨hs', hm'⟩ := h₀.merged hk h' hn'
    have hholds : c'.Holds = c.Holds := by
      funext p x
      exact propext (hh p x)
    refine access_eq_of_has_iff ((hm'.kind? id).trans (hm.kind? id).symm) fun g => ?_
    rw [hm'.has_iff hs'.toCoherent hk, hm.has_iff hs.toCoherent hk, Sourced, Sourced, hholds]

/-- Two folders and a document, none of them in another; a grant on the first folder is public. -/
def Cabinet.laidOut : Cabinet :=
  (((empty .standard 0).insertItem
    (.bare 1 (.container .folder) [⟨.anonymous, ⟨"READ"⟩⟩, ⟨.user "ann", ⟨"READ"⟩⟩])).insertItem
    (.bare 2 (.container .folder) [])).insertItem (.bare 3 .document [⟨.user "bob", ⟨"WRITE"⟩⟩])

/-- The second folder is put into the first one, and then the document into the second. -/
def Operation.fromAbove : List Operation :=
  [.add (.ofNat 1) (.ofNat 2) (.bare .inherit), .add (.ofNat 2) (.ofNat 3) (.bare .inherit)]

/-- The other way round, with an addition that is refused and one that is there already. -/
def Operation.fromBelow : List Operation :=
  [.add (.ofNat 2) (.ofNat 3) { Addition.bare .notFromContainers with defer := true },
    .add (.ofNat 3) (.ofNat 1) (.bare .inherit), .flush,
    .add (.ofNat 2) (.ofNat 3) (.bare .inherit), .add (.ofNat 1) (.ofNat 2) (.bare .inherit)]

theorem not_isShared_insertItem (hk : ∀ id, ¬c.IsShared id) {item : Item}
    (hi : item.isShared = false) (id : ItemId) : ¬(c.insertItem item).IsShared id := by
  rintro ⟨k, hkind, hs⟩
  rw [kind?, item?_insertItem] at hkind
  split at hkind
  · obtain rfl : item.kind = k := Option.some.inj hkind
    rw [Item.isShared, hs] at hi
    cases hi
  · exact hk id ⟨k, hkind, hs⟩

/-- The document ends with the grant of ann and its own, and not with the public one. -/
theorem access_of_merging_laidOut :
    (((afterAll Operation.fromAbove laidOut).item? (.ofNat 3)).map Item.access =
        some (.ofList [⟨.user "ann", ⟨"READ"⟩⟩, ⟨.user "bob", ⟨"WRITE"⟩⟩])) ∧
      ∀ id, ((afterAll Operation.fromBelow laidOut).item? id).map Item.access =
        ((afterAll Operation.fromAbove laidOut).item? id).map Item.access := by
  have h₀ : laidOut.Scattered :=
    (((scattered_empty .standard 0).insertItem _).insertItem _).insertItem _
  have hempty : ∀ id, ¬(empty .standard 0).IsShared id := fun id => by
    rintro ⟨k, hk, _⟩
    cases hk
  have hk : ∀ id, ¬laidOut.IsShared id :=
    not_isShared_insertItem (not_isShared_insertItem (not_isShared_insertItem hempty rfl) rfl) rfl
  obtain ⟨n, hn, h⟩ := reached_afterAll (.start : Reached Operation.Merging laidOut 0 _)
    (l := Operation.fromAbove) ⟨.inl rfl, .inl rfl, trivial⟩
  obtain ⟨m, hm, h'⟩ := reached_afterAll (.start : Reached Operation.Merging laidOut 0 _)
    (l := Operation.fromBelow) ⟨.inr rfl, .inl rfl, trivial, .inl rfl, .inl rfl, trivial⟩
  have hn : n ≤ 0 + 2 := hn
  have hm : m ≤ 0 + 5 := hm
  have hnext : laidOut.nextEdge.toNat = 1 := rfl
  -- the numbers of the edges differ, and the memberships do not
  have hkeys : (afterAll Operation.fromBelow laidOut).index.keys =
      (afterAll Operation.fromAbove laidOut).index.keys := by cbv
  have hs := (h₀.merged hk h (by omega)).1
  have hs' := (h₀.merged hk h' (by omega)).1
  refine ⟨by cbv, (access_of_merging h₀ hk h (by omega)).2.2 m _ h' (by omega) fun p id => ?_⟩
  rw [← hs.isMember_iff, ← hs'.isMember_iff, isMember, isMember, SortedMap.contains_iff,
    SortedMap.contains_iff, hkeys]

end Filing
