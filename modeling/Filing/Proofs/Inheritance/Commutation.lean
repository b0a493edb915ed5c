import Filing.Proofs.Generation
import Filing.Proofs.Inheritance.Withdrawal

/-!
# Removals commute

An item leaves two containers, one after the other.  The second removal sees grants that the first
one has changed: what both containers have is still on the item after the first removal, and may
already be gone below it.  In the end it makes no difference which was first.

* `Severed`: what a removal makes of everything but grants.  **Two removals of different memberships
  make the same of it in either order** (`Severed.comm`).
* `Withdrawn.spares_both`: **the grants that two removals leave, in closed form**.  What either
  container had in common with the item is due, and is spared where a container has it in the end.
  The two containers come into this in the same way, and it leaves no choice of the grants.
* `Request.removals_commute`: after every run both orders end with the very same cabinet.
-/

namespace Filing

open Cabinet Relation

attribute [ext] Cabinet

namespace Cabinet

variable {c c₁ c₂ c' d d' : Cabinet} {parent child p q x n : ItemId} {policy : Propagation}
  {key key' : Membership} {e e' f f' : EdgeId}

/-! ## Everything but grants -/

/-- The item without the edge of a membership in its lists. -/
def strike (key : Membership) (e : EdgeId) (id : ItemId) (i : Item) : Item :=
  { i with
    parentEdges := if id = key.item then i.parentEdges.erase e else i.parentEdges
    childEdges := if id = key.container then i.childEdges.erase e else i.childEdges }

/-- The edge `e`, which the index names for `key`, was taken out, and the grants may be others. -/
structure Severed (c : Cabinet) (key : Membership) (e : EdgeId) (c' : Cabinet) : Prop where
  named : c.index.find? key = some e
  settings : c'.settings = c.settings
  epoch : c'.epoch = c.epoch
  edges : c'.edges = c.edges.erase e
  index : c'.index = c.index.erase key
  deferred : c'.deferred = c.deferred.erase e
  nextEdge : c'.nextEdge = c.nextEdge
  generation : c'.generation = c.generation + 1
  item : ∀ id, (c'.item? id).map Item.ungranted =
    ((c.item? id).map Item.ungranted).map (strike key e id)

theorem Sound.severed (hs : c.Sound) (hh : c.Holds parent child) (policy : Propagation) :
    ∃ e c', (remove parent child policy).on c = (.ok true, c') ∧ c'.Sound ∧
      c.Severed ⟨child, parent⟩ e c' ∧ c.Withdrawn parent child policy c' := by
  obtain ⟨e, c₁, c', hunlink, hu, hr, hon, _⟩ := hs.on_remove hh policy
  obtain ⟨c'', hon', hw⟩ := hs.withdrawn hh policy
  cases hon.symm.trans hon'
  refine ⟨e, c', hon, hr.retouched.sound (hs.unlinked hu),
    { named := hu.named
      settings := hr.retouched.settings.trans hu.settings
      epoch := hr.retouched.epoch.trans hu.epoch
      edges := hr.edges.trans hu.edges
      index := hr.retouched.index.trans hu.index
      deferred := hr.retouched.deferred.trans ?deferred
      nextEdge := hr.retouched.nextEdge.trans hu.nextEdge
      generation := hr.generation.trans (generation_of_unlink? hunlink)
      item := fun id => (hr.ungranted id).trans ?item }, hw⟩
  case deferred =>
    rcases hu.on_container with ⟨⟨i, hi, hm⟩, hd⟩ | ⟨_, _, hd⟩
    · rw [hd, List.erase_of_not_mem (hs.child_not_deferred hi hm)]
    · exact hd
  case item =>
    rw [hu.item?, Option.map_map, Option.map_map]
    rfl

namespace Severed

theorem named_before (h : c.Severed key e c') (hk : key' ≠ key)
    (hn : c'.index.find? key' = some f) : c.index.find? key' = some f := by
  rwa [h.index, SortedMap.find?_erase, if_neg hk] at hn

theorem strike_comm (key key' : Membership) (e e' : EdgeId) (id : ItemId) (i : Item) :
    strike key e id (strike key' e' id i) = strike key' e' id (strike key e id i) := by
  have hcomm : ∀ (a b : Prop) [Decidable a] [Decidable b] (l : List EdgeId),
      (if a then (if b then l.erase e' else l).erase e else if b then l.erase e' else l) =
        if b then (if a then l.erase e else l).erase e' else if a then l.erase e else l := by
    intro a b _ _ l
    by_cases ha : a <;> by_cases hb : b <;> simp only [ha, hb, if_true, if_false]
    exact List.erase_comm ..
  rw [strike, strike, strike, strike]
  congr 1
  · exact hcomm ..
  · exact hcomm ..

/-- **Two memberships are severed in either order with the same effect**, but for grants. -/
theorem comm (hk : key ≠ key') (h₁ : c.Severed key e c₁) (h₁' : c₁.Severed key' e' d)
    (h₂ : c.Severed key' f' c₂) (h₂' : c₂.Severed key f d')
    (hg : ∀ n g, d.Has n g ↔ d'.Has n g) : d = d' := by
  obtain rfl : e = f :=
    Option.some.inj (h₁.named.symm.trans (h₂.named_before hk h₂'.named))
  obtain rfl : e' = f' :=
    Option.some.inj ((h₁.named_before hk.symm h₁'.named).symm.trans h₂.named)
  ext1
  case settings => rw [h₁'.settings, h₁.settings, h₂'.settings, h₂.settings]
  case epoch => rw [h₁'.epoch, h₁.epoch, h₂'.epoch, h₂.epoch]
  case edges => rw [h₁'.edges, h₁.edges, h₂'.edges, h₂.edges, SortedMap.erase_comm]
  case index => rw [h₁'.index, h₁.index, h₂'.index, h₂.index, SortedMap.erase_comm]
  case deferred => rw [h₁'.deferred, h₁.deferred, h₂'.deferred, h₂.deferred, List.erase_comm]
  case nextEdge => rw [h₁'.nextEdge, h₁.nextEdge, h₂'.nextEdge, h₂.nextEdge]
  case generation =>
    rw [h₁'.generation, h₁.generation, h₂'.generation, h₂.generation]
  case items =>
    refine SortedMap.ext fun id => item?_eq_of_has_iff ?_ (hg id)
    rw [h₁'.item, h₁.item, h₂'.item, h₂.item]
    cases (c.item? id).map Item.ungranted with
    | none => rfl
    | some i => exact congrArg some (strike_comm ..)

end Severed

/-! ## Grants -/

theorem Affected.below (h : c.Affected child policy n) : ReflTransGen c.Holds child n := by
  cases policy with
  | null => exact h.elim
  | inherit => exact h
  | share =>
    rcases h with rfl | hh
    · exact .refl
    · exact .single hh
  | notFromContainers => exact h.2

theorem Sound.not_affected (hs : c.Sound) (hh : c.Holds p x) : ¬c.Affected x policy p :=
  fun ha => hs.acyclic x (TransGen.tail' ha.below hh)

namespace Withdrawn

theorem kept (h : c.Withdrawn p x policy c') (hn : ¬c.Affected x policy n) (g : Grant) :
    c'.Has n g ↔ c.Has n g :=
  (h.has n g).trans (and_iff_left fun hw => hn hw.1)

theorem affected_iff (h : c.Withdrawn p x policy c') (hs : c.Sound) :
    c'.Affected x policy n ↔ c.Affected x policy n := by
  refine hs.affected_iff h.holds ?_ policy
  have hdocument := congrArg (Option.map Item.isDocument) (h.item x)
  rwa [Option.map_map, Option.map_map] at hdocument

/-- **The grants that two removals leave.**  Whatever either container had in common with the item is
due in the end, as if it were withdrawn at once. -/
theorem spares_both (hs : c.Sound) (hpq : p ≠ q) (hq : c.Holds q x)
    (h : c.Withdrawn p x policy c₁) (h' : c₁.Withdrawn q x policy d) :
    c.Spares d fun n g => c.Affected x policy n ∧ (c.InCommon p x g ∨ c.InCommon q x g) := by
  intro n g
  have hqg : c₁.Has q g ↔ c.Has q g := h.kept (hs.not_affected hq) g
  have haffected : c₁.Affected x policy n ↔ c.Affected x policy n := h.affected_iff hs
  constructor
  · intro hd
    obtain ⟨h₁, hspared'⟩ := (h'.has n g).mp hd
    obtain ⟨h₀, hspared⟩ := (h.has n g).mp h₁
    refine ⟨h₀, fun ⟨⟨ha, hdue⟩, hnone⟩ => ?_⟩
    have hpriv : g.isPublic = false := hdue.elim And.left And.left
    have hx : c.Has x g := hdue.elim (·.2.2) (·.2.2)
    by_cases hsupply : c.Has q g
    · -- the second container keeps the grant on the item, so the second removal withdraws it
      have hx₁ : c₁.Has x g := by
        refine (h.has x g).mpr ⟨hx, fun hw => hw.2.2 q ?_ (hqg.mpr hsupply)⟩
        exact (h.holds q x).mpr ⟨hq, fun heq => hpq heq.1.symm⟩
      exact hspared' ⟨haffected.mpr ha, ⟨hpriv, hqg.mpr hsupply, hx₁⟩, hnone⟩
    · -- the grant is none of the second removal, so what spares it after the first does so still
      have hcommon : c.InCommon p x g := hdue.resolve_right fun hc => hsupply hc.2.1
      refine hspared ⟨ha, hcommon, fun r hr hrg => hnone r ?_ ?_⟩
      · refine (h'.holds r n).mpr ⟨hr, fun heq => hsupply ?_⟩
        exact hqg.mp (heq.1 ▸ hrg)
      · exact (h'.has r g).mpr ⟨hrg, fun hw => hsupply (hqg.mp hw.2.1.2.1)⟩
  · rintro ⟨h₀, hspared⟩
    have hheld : ∀ r, d.Holds r n → c₁.Holds r n := fun r hr => ((h'.holds r n).mp hr).1
    have h₁ : c₁.Has n g := by
      refine (h.has n g).mpr ⟨h₀, fun ⟨ha, hcommon, hnone⟩ => hspared ⟨⟨ha, .inl hcommon⟩, ?_⟩⟩
      exact fun r hr hrg => hnone r (hheld r hr) ((h'.has r g).mp hrg).1
    refine (h'.has n g).mpr ⟨h₁, fun ⟨ha, ⟨hpriv, hsupply, hx⟩, hnone⟩ => hspared ⟨⟨?_, ?_⟩, hnone⟩⟩
    · exact haffected.mp ha
    · exact .inr ⟨hpriv, hqg.mp hsupply, ((h.has x g).mp hx).1⟩

end Withdrawn

/-- **Two removals of an item end with the same cabinet in either order.** -/
theorem Sound.remove_comm (hs : c.Sound) (hpq : p ≠ q) (hp : c.Holds p x) (hq : c.Holds q x)
    (policy : Propagation) :
    ∃ c₁ c₂ d, (remove p x policy).on c = (.ok true, c₁) ∧
      (remove q x policy).on c₁ = (.ok true, d) ∧ (remove q x policy).on c = (.ok true, c₂) ∧
      (remove p x policy).on c₂ = (.ok true, d) := by
  obtain ⟨e, c₁, hon₁, hs₁, hsev₁, hw₁⟩ := hs.severed hp policy
  obtain ⟨f', c₂, hon₂, hs₂, hsev₂, hw₂⟩ := hs.severed hq policy
  have hq₁ : c₁.Holds q x := (hw₁.holds q x).mpr ⟨hq, fun heq => hpq heq.1.symm⟩
  have hp₂ : c₂.Holds p x := (hw₂.holds p x).mpr ⟨hp, fun heq => hpq heq.1⟩
  obtain ⟨e', d, hon₁', _, hsev₁', hw₁'⟩ := hs₁.severed hq₁ policy
  obtain ⟨f, d', hon₂', _, hsev₂', hw₂'⟩ := hs₂.severed hp₂ policy
  have hspares := Withdrawn.spares_both hs hpq hq hw₁ hw₁'
  have hspares' : c.Spares d' fun n g =>
      c.Affected x policy n ∧ (c.InCommon p x g ∨ c.InCommon q x g) := fun n g => by
    simpa only [or_comm] using Withdrawn.spares_both hs hpq.symm hp hw₂ hw₂' n g
  have hholds : ∀ r n, d'.Holds r n ↔ d.Holds r n := fun r n => by
    rw [hw₂'.holds, hw₂.holds, hw₁'.holds, hw₁.holds, and_right_comm]
  have hsub : ∀ r n, d.Holds r n → c.Holds r n := fun r n h =>
    ((hw₁.holds r n).mp ((hw₁'.holds r n).mp h).1).1
  have hd : d = d' := hsev₁.comm (fun hkey => hpq (congrArg Membership.container hkey)) hsev₁'
    hsev₂ hsev₂' (hspares.has_unique hspares' hs hsub hholds)
  exact ⟨c₁, c₂, d, hon₁, hon₁', hon₂, hd ▸ hon₂'⟩

end Cabinet

/-! ## Runs -/

namespace Request

variable {settings : Settings} {epoch : Epoch} {c : Cabinet} {l : List Request} {p q x : ItemId}

/-- **The order in which an item leaves two containers makes no difference**, in every cabinet that
a run from an empty one comes to: both orders succeed, and end with the very same cabinet, whose
items, grants, lists and generation are the same. -/
theorem removals_commute (hl : AllAllowed Fresh l (.empty settings epoch))
    (hn : linksAll l (.empty settings epoch) < 2 ^ 64 - 1)
    (hc : afterAll l (.empty settings epoch) = c) (hpq : p ≠ q) (hp : c.Holds p x)
    (hq : c.Holds q x) (policy : Propagation) :
    ∃ c₁ c₂ d, (remove p x policy).on c = (.ok true, c₁) ∧
      (remove q x policy).on c₁ = (.ok true, d) ∧ (remove q x policy).on c = (.ok true, c₂) ∧
      (remove p x policy).on c₂ = (.ok true, d) :=
  (hc ▸ sound_afterAll hl hn : c.Sound).remove_comm hpq hp hq policy

/-- Two folders with the same grant have a third one in common, and there is a document in that. -/
def heldTwice : List Request :=
  [.insert (.bare 1 (.container .folder) [annRead]),
    .insert (.bare 2 (.container .folder) [annRead]), .insert (.bare 3 (.container .folder) []),
    .insert (.bare 4 .document []), .add (.ofNat 3) (.ofNat 4) (.bare .null),
    .add (.ofNat 1) (.ofNat 3) (.bare .inherit),
    .add (.ofNat 2) (.ofNat 3) (.bare .inherit)].map operation

/-- The document keeps the grant while the third folder is still in one of the others, whichever it
leaves first, and loses it then. -/
theorem removals_commute_heldTwice : ∃ c, afterAll heldTwice (.empty .standard 0) = c ∧
    ∃ c₁ c₂ d, (remove (.ofNat 1) (.ofNat 3) .inherit).on c = (.ok true, c₁) ∧
      (remove (.ofNat 2) (.ofNat 3) .inherit).on c₁ = (.ok true, d) ∧
      (remove (.ofNat 2) (.ofNat 3) .inherit).on c = (.ok true, c₂) ∧
      (remove (.ofNat 1) (.ofNat 3) .inherit).on c₂ = (.ok true, d) ∧
      c₁.Has (.ofNat 4) annRead ∧ c₂.Has (.ofNat 4) annRead ∧ ¬d.Has (.ofNat 4) annRead := by
  have hl : AllAllowed Fresh heldTwice (.empty .standard 0) :=
    ⟨rfl, rfl, rfl, rfl, trivial, trivial, trivial, trivial⟩
  have hn : linksAll heldTwice (.empty .standard 0) ≤ 7 := linksAll_le_length ..
  have hs := sound_afterAll hl (by omega)
  obtain ⟨c₁, c₂, d, h₁, h₁', h₂, h₂'⟩ := removals_commute hl (by omega) rfl
    (p := .ofNat 1) (q := .ofNat 2) (x := .ofNat 3) (by decide) (hs.isMember_iff.mp (by cbv))
    (hs.isMember_iff.mp (by cbv)) .inherit
  have hfirst : c₁ = ((remove (.ofNat 1) (.ofNat 3) .inherit).on
      (afterAll heldTwice (.empty .standard 0))).2 := (congrArg Prod.snd h₁).symm
  have hsecond : c₂ = ((remove (.ofNat 2) (.ofNat 3) .inherit).on
      (afterAll heldTwice (.empty .standard 0))).2 := (congrArg Prod.snd h₂).symm
  have hlast : d = ((remove (.ofNat 2) (.ofNat 3) .inherit).on c₁).2 :=
    (congrArg Prod.snd h₁').symm
  refine ⟨_, rfl, c₁, c₂, d, h₁, h₁', h₂, h₂', ?_, ?_, ?_⟩ <;> rw [has_iff_any]
  · rw [hfirst]
    cbv
  · rw [hsecond]
    cbv
  · rw [hlast, hfirst, Bool.not_eq_true]
    cbv

end Request

end Filing
