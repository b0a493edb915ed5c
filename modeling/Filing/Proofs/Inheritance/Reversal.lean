import Filing.Proofs.Admission
import Filing.Proofs.Inheritance.Commutation

/-!
# An addition undone

An item is added to a container, inherits from it, and is removed again.  The addition passes on a
closure that kinds and roles filter, and turns items into their shared variants on the way; the
removal takes back what both ends have in common, with no filter.  Still the one undoes the other,
provided that the members below the item had what their containers pass on (`CompleteBelow`) and
that the private grants of the container were foreign to the item and all below it (`GrantsApart`).

* `Bestowed`: what the addition leaves of memberships and grants.  With nothing to make up for below
  the item, **whatever is gained comes from the container**, and the item has it too
  (`Extended.bestowed`).
* `Bestowed.restored`: **the removal takes all of this back**, from containers downwards.
* `Request.additions_undone`: after every run everything is as it was, except for kinds, the number
  of the next edge and the generation (`Restored`).
-/

namespace Filing

open Cabinet Relation

namespace Cabinet

variable {c s c₁ c₂ : Cabinet} {parent child n x : ItemId} {g : Grant} {a : Addition} {e : EdgeId}

/-! ## Grants -/

/-- At and below the item every member has what its container passes on. -/
def CompleteBelow (c : Cabinet) (top : ItemId) : Prop :=
  ∀ p x, ReflTransGen c.Holds top p → c.Holds p x → c.PassedOn p x

/-- No private grant of the container is on an item at or below the other one, or on a container of
such an item that is not there itself. -/
def GrantsApart (c : Cabinet) (parent child : ItemId) : Prop :=
  ∀ g, g.isPublic = false → c.Has parent g → ∀ x, ReflTransGen c.Holds child x →
    ¬c.Has x g ∧ ∀ p, c.Holds p x → ¬ReflTransGen c.Holds child p → ¬c.Has p g

/-- There is one membership more, the grants are the same, and what withheld them does so still. -/
structure Extended (c : Cabinet) (parent child : ItemId) (s : Cabinet) : Prop where
  holds : ∀ p x, s.Holds p x ↔ c.Holds p x ∨ p = parent ∧ x = child
  has : ∀ x g, s.Has x g ↔ c.Has x g
  withholds : ∀ {p g}, c.Withholds p g → s.Withholds p g

/-- **There is one membership more, and nothing is lost.**  Whatever is gained at or below the member
is a private grant of the container, and the member has it too. -/
structure Bestowed (c : Cabinet) (parent child : ItemId) (c' : Cabinet) : Prop where
  holds : ∀ p x, c'.Holds p x ↔ c.Holds p x ∨ p = parent ∧ x = child
  kept : ∀ {x g}, c.Has x g → c'.Has x g
  gained : ∀ {x g}, c'.Has x g → c.Has x g ∨
    ReflTransGen c.Holds child x ∧ g.isPublic = false ∧ c.Has parent g ∧ c'.Has child g

theorem below_of_holds {c' : Cabinet}
    (h : ∀ p x, c'.Holds p x ↔ c.Holds p x ∨ p = parent ∧ x = child)
    (hn : ¬ReflTransGen c.Holds child parent) (hx : ReflTransGen c'.Holds child x) :
    ReflTransGen c.Holds child x :=
  below_with_arc hn (ReflTransGen.mono (fun p x => (h p x).mp) child x hx)

/-- **What is on an item below the member was passed on already.** -/
theorem Extended.has_of_conveys (h : c.Extended parent child s)
    (hn : ¬ReflTransGen c.Holds child parent) (hbelow : c.CompleteBelow child) (hc : c.Coherent)
    (hx : ReflTransGen c.Holds child x) (hg : c.Has x g) (hpriv : g.isPublic = false)
    (hxn : ReflTransGen (s.Conveys g) x n) :
    ReflTransGen c.Holds child n ∧ c.Has n g := by
  induction hxn with
  | refl => exact ⟨hx, hg⟩
  | tail _ hstep ih =>
    obtain ⟨hp, hpg⟩ := ih
    have hpn : c.Holds _ _ := ((h.holds _ _).mp hstep.1).resolve_right fun hnew =>
      hn (hnew.1 ▸ hp)
    obtain ⟨i, hi, hgi⟩ := offers_iff_passes.mpr ⟨hpg, hpriv, fun hw => hstep.2 (h.withholds hw)⟩
    obtain ⟨j, hj⟩ := hc.item_stored hpn
    exact ⟨hp.tail hpn, j, hj, hbelow _ _ hp hpn i j hi hj g hgi⟩

/-- **Whatever an addition gives comes from the container.** -/
theorem Extended.bestowed (h : c.Extended parent child s) (hr : s.Regranted c₁)
    (hspec : ∀ n g, c₁.Has n g ↔ s.Has n g ∨ s.Descends parent child n g)
    (hn : ¬ReflTransGen c.Holds child parent) (hbelow : c.CompleteBelow child)
    (hc : c.Coherent) : c.Bestowed parent child c₁ where
  holds p x := hr.retouched.holds_iff.trans (h.holds p x)
  kept hx := (hspec _ _).mpr (.inl ((h.has _ _).mpr hx))
  gained {x g} hx := by
    rcases (hspec x g).mp hx with hold | ⟨hpass, hdown⟩ | ⟨hpriv, y, hy, hyg, hyx⟩
    · exact .inl ((h.has x g).mp hold)
    · have hchild : c₁.Has child g := (hspec child g).mpr (.inr (.inl ⟨hpass, .refl⟩))
      exact .inr ⟨below_of_holds h.holds hn (Conveys.reflTransGen hdown), hpass.2.1,
        (h.has _ _).mp hpass.1, hchild⟩
    · exact .inl (h.has_of_conveys hn hbelow hc (below_of_holds h.holds hn hy)
        ((h.has y g).mp hyg) hpriv hyx.to_reflTransGen).2

/-- **A removal takes back what the addition gave**, and nothing else. -/
theorem Bestowed.restored (h : c.Bestowed parent child c₁) (hs : c.Sound)
    (hh : ¬c.Holds parent child) (hn : ¬ReflTransGen c.Holds child parent)
    (hapart : c.GrantsApart parent child) (hw : c₁.Withdrawn parent child .inherit c₂) (n : ItemId)
    (g : Grant) : c₂.Has n g ↔ c.Has n g := by
  have hholds : ∀ p x, c₂.Holds p x ↔ c.Holds p x := by
    intro p x
    rw [hw.holds, h.holds]
    constructor
    · exact fun ⟨hpx, hne⟩ => hpx.resolve_right hne
    · exact fun hpx => ⟨.inl hpx, fun hnew => hh (hnew.1 ▸ hnew.2 ▸ hpx)⟩
  have hoff : ∀ {x}, ¬ReflTransGen c.Holds child x → ∀ {g}, c₁.Has x g → c.Has x g := fun hx _ hg =>
    (h.gained hg).resolve_right fun hgained => hx hgained.1
  constructor
  · induction n using hs.holds_induction with
    | hstep n ih =>
      intro hg
      obtain ⟨hg₁, hspared⟩ := (hw.has n g).mp hg
      refine (h.gained hg₁).resolve_right fun ⟨hbelow, hpriv, hparent, hchild⟩ => ?_
      -- what was gained is due, and no container has it any more
      refine hspared ⟨?_, ⟨hpriv, h.kept hparent, hchild⟩, fun q hq hqg => ?_⟩
      · exact ReflTransGen.mono (fun p x hpx => (h.holds p x).mpr (.inl hpx)) child n hbelow
      · have hq := (hholds q n).mp hq
        by_cases hqbelow : ReflTransGen c.Holds child q
        · exact (hapart g hpriv hparent q hqbelow).1 (ih q hq hqg)
        · exact (hapart g hpriv hparent n hbelow).2 q hq hqbelow
            (hoff hqbelow ((hw.has q g).mp hqg).1)
  · intro hg
    refine (hw.has n g).mpr ⟨h.kept hg, fun ⟨ha, ⟨hpriv, hparent, _⟩, _⟩ => ?_⟩
    exact (hapart g hpriv (hoff hn hparent) n (below_of_holds h.holds hn ha)).1 hg

/-! ## Edges and kinds -/

/-- **All is as it was**, except for the kinds of items that came into a sharing area, the number of
the next edge and the generation. -/
structure Restored (c : Cabinet) (parent child : ItemId) (c' : Cabinet) : Prop where
  settings : c'.settings = c.settings
  epoch : c'.epoch = c.epoch
  edges : c'.edges = c.edges
  index : c'.index = c.index
  deferred : c'.deferred = c.deferred
  nextEdge : c'.nextEdge = c.nextEdge.next
  item : ∀ x, ¬(c.IsShared parent ∧ ReflTransGen c.Holds child x) → c'.item? x = c.item? x
  shared : ∀ x, c.IsShared parent → ReflTransGen c.Holds child x →
    c'.item? x = (c.item? x).map Item.shared

theorem erase_append_new {l : List EdgeId} (he : e ∉ l) : (l ++ [e]).erase e = l := by
  rw [List.erase_append_right _ he, List.erase_cons_head, List.append_nil]

theorem strike_entered (parent child x : ItemId) {i : Item} (hp : e ∉ i.parentEdges)
    (hc : e ∉ i.childEdges) (defer : Bool) :
    strike ⟨child, parent⟩ e x { i with
      parentEdges := if x = child then i.parentEdges ++ [e] else i.parentEdges
      childEdges := if x = parent ∧ defer = false then i.childEdges ++ [e] else i.childEdges } =
      i := by
  rw [strike]
  congr 1
  · dsimp only
    split
    · exact erase_append_new hp
    · rfl
  · dsimp only
    by_cases hx : x = parent
    · cases defer with
      | false => rw [if_pos hx, if_pos ⟨hx, rfl⟩, erase_append_new hc]
      | true =>
        rw [if_pos hx, if_neg (by simp)]
        exact List.erase_of_not_mem hc
    · rw [if_neg hx, if_neg fun h => hx h.1]

end Cabinet

section Add

variable {c c₁ c₂ : Cabinet} {parent child : ItemId} {a : Addition} {e : EdgeId}

theorem checkAdd_of_on_add (h : (add parent child a).on c = (.ok (.added e), c₁)) :
    c.checkAdd parent child a.policy = .ok () ∧ c.index.find? ⟨child, parent⟩ = none := by
  cases hadd : c.checkAdd parent child a.policy with
  | error x =>
    rw [on_add_refused hadd] at h
    cases h
  | ok =>
    cases hi : c.index.find? ⟨child, parent⟩ with
    | some e' =>
      rw [on_add_present hadd hi] at h
      cases h
    | none => exact ⟨rfl, rfl⟩

theorem Cabinet.Sound.on_add_of_addBy {allows : Item → Item → Bool} {refusal : Failure}
    (hs : c.Sound) (h : (addBy parent child allows refusal a).on c = (.ok (.added e), c₁)) :
    (add parent child { a with policy := .permissive }).on c = (.ok (.added e), c₁) := by
  rcases c.wrong_or_right parent child allows refusal with ⟨x, hx⟩ | ⟨i, j, hright⟩
  · rw [on_addBy_of_error (hs.checkAddBy_of_wrong hx)] at h
    cases h
  · obtain ⟨hcheck, hadd⟩ := hright.checkAddBy_ok hs refusal
    rwa [on_addBy_of_ok hcheck hadd] at h

/-- **What an addition that inherits does**: it enters the edge, converts kinds, and gives items what
descends to them. -/
theorem Cabinet.Orderly.on_add_inherit (h : c.Orderly) (ha : a.propagation = .inherit)
    (hadd : c.checkAdd parent child a.policy = .ok ())
    (hi : c.index.find? ⟨child, parent⟩ = none) :
    ∃ l s c', (add parent child a).on c = (.ok (.added c.nextEdge), c') ∧ c'.Sound ∧
      (∀ x, x ∈ l ↔ c.IsShared parent ∧ ReflTransGen c.Holds child x) ∧
      s = (c.withEdge ⟨child, parent⟩ a.acting a.defer a.now).shareAll l ∧
      c.Extended parent child s ∧ s.Regranted c' ∧
      ∀ n g, c'.Has n g ↔ s.Has n g ∨ s.Descends parent child n g := by
  have hn := h.nextEdge_free
  obtain ⟨_, ⟨i, j, hp, _, hc, _⟩, hv⟩ := checkAdd_eq_ok_iff.mp hadd
  have hup := ((checkCycle_eq_acyclic_iff h.toCoherent h.acyclic).mp hv).2
  let w := c.withEdge ⟨child, parent⟩ a.acting a.defer a.now
  have hw : w.Sound := h.toSound.withEdge a.acting a.defer a.now hn hadd hi
  have hholds : ∀ p x, w.Holds p x ↔ c.Holds p x ∨ p = parent ∧ x = child := fun p x =>
    holds_withEdge _ _ _ hn
  have hlisted := item?_withEdge c ⟨child, parent⟩ a.acting a.defer a.now
  obtain ⟨l, _, hl, hkinds⟩ :=
    hw.on_convertKinds ((hlisted parent).trans (congrArg _ hp))
      ((hlisted child).trans (congrArg _ hc))
  have hr := retouched_shareAll w l
  obtain ⟨i₁, hp₁, _⟩ := hr.item_after ((hlisted parent).trans (congrArg _ hp))
  obtain ⟨j₁, hc₁, _⟩ := hr.item_after ((hlisted child).trans (congrArg _ hc))
  obtain ⟨c', hon, hr', hhas, _⟩ := (hr.sound hw).on_mergeDown_subtree hp₁ hc₁
  refine ⟨l, w.shareAll l, c', ?_, hr'.retouched.sound (hr.sound hw), fun x => ?_, rfl,
    ⟨fun p x => hr.holds_iff.trans (hholds p x), fun x g => ?_, ?_⟩, hr', hhas⟩
  · rw [on_add_created hadd hi, Addition.settle, ha]
    show (convertKinds parent child >>= fun _ => _).on w = _
    rw [Edit.on_bind_of_ok hkinds]
    show (mergeDown parent child .subtree >>= fun _ => _).on _ = _
    rw [Edit.on_bind_of_ok hon, Edit.on_pure]
  · rw [hl, isShared_iff hp]
    refine and_congr_right fun _ => ⟨below_of_holds hholds hup, fun hx => ?_⟩
    exact ReflTransGen.mono (fun p x hpx => (hholds p x).mpr (.inl hpx)) child x hx
  · exact has_congr ((map_item?_shareAll (fun _ => rfl) w l x).trans
      (map_item?_of_map hlisted (fun _ _ => rfl) x))
  · rintro p g ⟨hel, hk⟩
    refine ⟨?_, ?_⟩
    · rw [hr.settings]
      exact (settings_withEdge ..).symm ▸ hel
    · rw [kind?_shareAll, kind?_withEdge, hk]
      split <;> rfl

/-- **What is left of edges and kinds** when the new edge is taken out again. -/
theorem Cabinet.Severed.restored {l : List ItemId} (h : c.Orderly)
    (hi : c.index.find? ⟨child, parent⟩ = none)
    (hl : ∀ x, x ∈ l ↔ c.IsShared parent ∧ ReflTransGen c.Holds child x)
    (hr : ((c.withEdge ⟨child, parent⟩ a.acting a.defer a.now).shareAll l).Regranted c₁)
    (hsev : c₁.Severed ⟨child, parent⟩ e c₂) (hg : ∀ n g, c₂.Has n g ↔ c.Has n g) :
    c.Restored parent child c₂ := by
  have hn := h.nextEdge_free
  have hr' := (retouched_shareAll _ l).trans hr.retouched
  -- the edge that is taken out is the one that was entered
  obtain rfl : c.nextEdge = e := by
    have hnamed := hsev.named
    rw [hr'.index, find?_index_withEdge, if_pos rfl] at hnamed
    exact Option.some.inj hnamed
  have hdeferred : c.nextEdge ∉ c.deferred := h.not_mem_deferred hn
  have hitem : ∀ x, c₂.item? x = (c.shareAll l).item? x := by
    intro x
    refine item?_eq_of_has_iff ?_ fun g =>
      (hg x g).trans (has_congr (map_item?_shareAll (fun _ => rfl) c l x)).symm
    rw [hsev.item, hr.ungranted, item?_shareAll, item?_shareAll, item?_withEdge]
    cases hx : c.item? x with
    | none => split <;> rfl
    | some i =>
      have hstrike := strike_entered parent child x (h.not_mem_parentEdges hn hx)
        (h.not_mem_childEdges hn hx) a.defer
      split
      · exact congrArg (fun i => some (Item.ungranted (Item.shared i))) hstrike
      · exact congrArg (fun i => some (Item.ungranted i)) hstrike
  exact
    { settings := hsev.settings.trans (hr'.settings.trans (settings_withEdge ..))
      epoch := hsev.epoch.trans (hr'.epoch.trans (epoch_withEdge ..))
      edges := by rw [hsev.edges, hr'.edges, edges_withEdge, SortedMap.erase_insert _ hn]
      index := by rw [hsev.index, hr'.index, index_withEdge, SortedMap.erase_insert _ hi]
      deferred := by
        rw [hsev.deferred, hr'.deferred, deferred_withEdge]
        split
        · exact erase_append_new hdeferred
        · exact List.erase_of_not_mem hdeferred
      nextEdge := hsev.nextEdge.trans hr'.nextEdge
      item := fun x hx => by rw [hitem, item?_shareAll, if_neg fun hm => hx ((hl x).mp hm)]
      shared := fun x hp hx => by rw [hitem, item?_shareAll, if_pos ((hl x).mpr ⟨hp, hx⟩)] }

/-- **A removal undoes an addition**, up to kinds, the number of the next edge and the generation. -/
theorem Cabinet.Orderly.addition_undone (h : c.Orderly) (ha : a.propagation = .inherit)
    (hon : (add parent child a).on c = (.ok (.added e), c₁)) (hbelow : c.CompleteBelow child)
    (hapart : c.GrantsApart parent child) :
    ∃ c₂, (remove parent child .inherit).on c₁ = (.ok true, c₂) ∧
      c.Restored parent child c₂ := by
  obtain ⟨hadd, hi⟩ := checkAdd_of_on_add hon
  obtain ⟨_, _, hv⟩ := checkAdd_eq_ok_iff.mp hadd
  have hup := ((checkCycle_eq_acyclic_iff h.toCoherent h.acyclic).mp hv).2
  have hout : ¬c.Holds parent child := h.find?_eq_none_iff.mp hi
  obtain ⟨l, s, c', hon', hs₁, hl, rfl, hext, hr, hhas⟩ := h.on_add_inherit ha hadd hi
  cases hon.symm.trans hon'
  have hbestowed := hext.bestowed hr hhas hup hbelow h.toCoherent
  obtain ⟨e', c₂, hrem, _, hsev, hw⟩ :=
    hs₁.severed ((hbestowed.holds parent child).mpr (.inr ⟨rfl, rfl⟩)) .inherit
  exact ⟨c₂, hrem, hsev.restored h hi hl hr (hbestowed.restored h.toSound hout hup hapart hw)⟩

end Add

/-! ## Runs -/

namespace Request

variable {settings : Settings} {epoch : Epoch} {c c₁ : Cabinet} {l : List Request}
  {parent child : ItemId} {a : Addition} {e : EdgeId}

/-- **A removal undoes an addition** where both inherit, in every cabinet that a run from an empty
one comes to and for every rule of the caller, if below the item everything was passed on, and the
private grants of the container are foreign there.  Items, grants, lists, edges and the index are as
they were, but for the kinds of items that came into a sharing area. -/
theorem additions_undone (hl : AllAllowed Fresh l (.empty settings epoch))
    (hn : linksAll l (.empty settings epoch) < 2 ^ 64 - 1)
    (hc : afterAll l (.empty settings epoch) = c) {allows : Item → Item → Bool} {refusal : Failure}
    (ha : a.propagation = .inherit)
    (hon : (addBy parent child allows refusal a).on c = (.ok (.added e), c₁))
    (hbelow : c.CompleteBelow child) (hapart : c.GrantsApart parent child) :
    ∃ c₂, (remove parent child .inherit).on c₁ = (.ok true, c₂) ∧
      c.Restored parent child c₂ := by
  have ho : c.Orderly := hc ▸ (orderly_afterAll (orderly_empty settings epoch) hl (linksAll_lt hn)).1
  exact ho.addition_undone (a := { a with policy := .permissive }) ha (ho.on_add_of_addBy hon)
    hbelow hapart

/-- A notebook has a document, to which it passes on a grant of its own; another folder has the
document as well, and a shared folder is apart. -/
def setApart : List Request :=
  [.insert (.bare 1 (.container .sharedFolder) [annRead, elevatedRead]),
    .insert (.bare 2 (.container .notebook) [⟨.user "bob", ⟨"READ"⟩⟩]),
    .insert (.bare 3 .document []), .insert (.bare 4 (.container .folder) []),
    .add (.ofNat 4) (.ofNat 3) (.bare .null),
    .add (.ofNat 2) (.ofNat 3) (.bare .inherit)].map operation

theorem sound_setApart : (afterAll setApart (.empty .standard 0)).Sound := by
  have hl : AllAllowed Fresh setApart (.empty .standard 0) :=
    ⟨rfl, rfl, rfl, rfl, trivial, trivial, trivial⟩
  have hn : linksAll setApart (.empty .standard 0) ≤ 6 := linksAll_le_length ..
  exact sound_afterAll hl (by omega)

theorem below_setApart {x : ItemId}
    (hx : ReflTransGen (afterAll setApart (.empty .standard 0)).Holds (.ofNat 2) x) :
    x = .ofNat 2 ∨ x = .ofNat 3 := by
  have horder : (afterAll setApart (.empty .standard 0)).inheritanceOrder (.ofNat 2) .subtree =
      [.ofNat 2, .ofNat 3] := by cbv
  have hm : x ∈ (afterAll setApart (.empty .standard 0)).inheritanceOrder (.ofNat 2) .subtree :=
    sound_setApart.mem_inheritanceOrder_iff.mpr hx
  rw [horder] at hm
  simpa using hm

theorem completeBelow_setApart :
    (afterAll setApart (.empty .standard 0)).CompleteBelow (.ofNat 2) := by
  intro p x hp hpx i j hi hj g hg
  have hsame : ((afterAll setApart (.empty .standard 0)).item? (.ofNat 2)).map
      (afterAll setApart (.empty .standard 0)).passedOn =
        ((afterAll setApart (.empty .standard 0)).item? (.ofNat 3)).map Item.access := by cbv
  have hnotebook : (afterAll setApart (.empty .standard 0)).children (.ofNat 2) = [.ofNat 3] := by
    cbv
  have hdocument : (afterAll setApart (.empty .standard 0)).children (.ofNat 3) = [] := by cbv
  rw [← sound_setApart.mem_children_iff] at hpx
  rcases below_setApart hp with rfl | rfl
  · rw [hnotebook, List.mem_singleton] at hpx
    subst hpx
    rw [hi, hj, Option.map_some, Option.map_some, Option.some.injEq] at hsame
    exact hsame ▸ hg
  · rw [hdocument] at hpx
    cases hpx

theorem grantsApart_setApart :
    (afterAll setApart (.empty .standard 0)).GrantsApart (.ofNat 1) (.ofNat 2) := by
  have haccess : ((afterAll setApart (.empty .standard 0)).item? (.ofNat 1)).map Item.access =
      some (.ofList [annRead, elevatedRead]) := by cbv
  have hclean : (([.ofNat 2, .ofNat 3, .ofNat 4] : List ItemId).all fun x =>
      [annRead, elevatedRead].all fun g => !((afterAll setApart (.empty .standard 0)).item? x).any
        fun i => decide (g ∈ i.access)) = true := by cbv
  have hparents : (afterAll setApart (.empty .standard 0)).parents (.ofNat 2) = [] ∧
      (afterAll setApart (.empty .standard 0)).parents (.ofNat 3) = [.ofNat 4, .ofNat 2] :=
    ⟨by cbv, by cbv⟩
  rintro g - ⟨i, hi, hgi⟩ x hx
  rw [hi, Option.map_some, Option.some.injEq] at haccess
  rw [haccess, SortedSet.mem_ofList] at hgi
  have hnot : ∀ y ∈ ([.ofNat 2, .ofNat 3, .ofNat 4] : List ItemId),
      ¬(afterAll setApart (.empty .standard 0)).Has y g := fun y hy => by
    rw [has_iff_any, Bool.not_eq_true, ← Bool.not_eq_true']
    exact List.all_eq_true.mp (List.all_eq_true.mp hclean y hy) g hgi
  rcases below_setApart hx with rfl | rfl
  · refine ⟨hnot _ (by simp), fun p hpx _ => ?_⟩
    rw [← sound_setApart.mem_parents_iff, hparents.1] at hpx
    cases hpx
  · refine ⟨hnot _ (by simp), fun p hpx _ => hnot p ?_⟩
    rw [← sound_setApart.mem_parents_iff, hparents.2] at hpx
    rcases List.mem_pair.mp hpx with rfl | rfl <;> simp

/-- The notebook goes into the shared folder and out again, and stays a shared one; the document had
the grant of ann in the meantime, and not that of the elevated role. -/
theorem additions_undone_setApart : ∃ c c₁ c₂, afterAll setApart (.empty .standard 0) = c ∧
    (add (.ofNat 1) (.ofNat 2) (.bare .inherit)).on c = (.ok (.added ⟨3⟩), c₁) ∧
    c₁.Has (.ofNat 3) annRead ∧ ¬c₁.Has (.ofNat 3) elevatedRead ∧
    (remove (.ofNat 1) (.ofNat 2) .inherit).on c₁ = (.ok true, c₂) ∧
    c.Restored (.ofNat 1) (.ofNat 2) c₂ ∧
    c₂.item? (.ofNat 2) = (c.item? (.ofNat 2)).map Item.shared := by
  have hl : AllAllowed Fresh setApart (.empty .standard 0) :=
    ⟨rfl, rfl, rfl, rfl, trivial, trivial, trivial⟩
  have hn : linksAll setApart (.empty .standard 0) ≤ 6 := linksAll_le_length ..
  have hon : ((add (.ofNat 1) (.ofNat 2) (.bare .inherit)).on
      (afterAll setApart (.empty .standard 0))).1 = .ok (.added ⟨3⟩) := by cbv
  rw [add_eq_addBy] at hon ⊢
  obtain ⟨c₂, hrem, hrest⟩ := additions_undone hl (by omega) rfl rfl (Prod.ext hon rfl)
    completeBelow_setApart grantsApart_setApart
  refine ⟨_, _, c₂, rfl, Prod.ext hon rfl, ?_, ?_, hrem, hrest, hrest.shared _ ?_ .refl⟩
  · rw [has_iff_any]
    cbv
  · rw [has_iff_any, Bool.not_eq_true]
    cbv
  · exact ⟨.container .sharedFolder, by cbv, rfl⟩

end Request

end Filing
