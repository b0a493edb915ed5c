import Filing.Proofs.Inheritance.Closure
import Filing.Proofs.Inheritance.Elevation

/-!
# How far grants come down

What a merge comes to is told by the items that pass on to an item in the end
(`Sound.on_mergeDown`).  Here it is told by the state before the merge alone: a grant comes down
along a chain of memberships, each of whose containers lets it through.  An elevated grant stops at
shared notebooks, and public ones do not come down at all.

* `Descends`: the grant comes down from the container that the merge starts from, or from an item
  that had it and lies within reach.
* `Sound.has_iff_descends`: **after a merge to everything below, an item has what it had and what
  descends to it**, whichever way it descends and in whatever order the items are visited.
* `Request.onAdd_access`: this, and what a merge of one level does, after every run.
-/

namespace Filing

open Cabinet Relation

namespace Cabinet

variable {c c' : Cabinet} {parent child n p x : ItemId} {g : Grant}

/-! ## What stops a grant -/

/-- The grant is one of an elevated role, and the item is a shared notebook. -/
def Withholds (c : Cabinet) (id : ItemId) (g : Grant) : Prop :=
  c.settings.isElevated g.principal = true ∧ c.kind? id = some (.container .sharedNotebook)

/-- The item has the grant and lets its members have it. -/
def Passes (c : Cabinet) (id : ItemId) (g : Grant) : Prop :=
  c.Has id g ∧ g.isPublic = false ∧ ¬c.Withholds id g

/-- The membership lets the grant through. -/
def Conveys (c : Cabinet) (g : Grant) (p x : ItemId) : Prop := c.Holds p x ∧ ¬c.Withholds p g

/-- **The grant comes down to an item** if `child` is given what `parent` passes on: from `parent`
through `child`, or from an item at or below `child` that had it. -/
def Descends (c : Cabinet) (parent child n : ItemId) (g : Grant) : Prop :=
  c.Passes parent g ∧ ReflTransGen (c.Conveys g) child n ∨
    g.isPublic = false ∧
      ∃ x, ReflTransGen c.Holds child x ∧ c.Has x g ∧ TransGen (c.Conveys g) x n

theorem isSharedCollection_iff {k : ItemKind} :
    k.isContainerThat ContainerKind.isSharedCollection = true ↔ k = .container .sharedNotebook := by
  rcases k with _ | k
  · decide
  · cases k <;> decide

theorem offers_iff_passes : c.Offers p g ↔ c.Passes p g := by
  cases hi : c.item? p with
  | none => simp [Offers, Passes, Has, hi]
  | some i =>
    rw [offers_iff hi, mem_passedOn_iff, Passes, has_iff hi, Withholds, kind?, hi,
      isSharedCollection_iff, Option.map_some, Option.some.injEq, not_and', Bool.not_eq_true]

namespace Regranted

theorem withholds_iff (h : c.Regranted c') : c'.Withholds p g ↔ c.Withholds p g := by
  rw [Withholds, Withholds, h.kind?, h.retouched.settings]

theorem item?_eq (h : c.Regranted c') (hg : ∀ g, c'.Has n g ↔ c.Has n g) :
    c'.item? n = c.item? n := item?_eq_of_has_iff (h.ungranted n) hg

end Regranted

/-! ## Coming down -/

theorem Conveys.reflTransGen (h : ReflTransGen (c.Conveys g) p x) : ReflTransGen c.Holds p x :=
  ReflTransGen.mono (fun _ _ => And.left) _ _ h

theorem Descends.tail (h : c.Descends parent child p g) (hpx : c.Conveys g p x) :
    c.Descends parent child x g := by
  rcases h with ⟨hpass, hp⟩ | ⟨hpriv, y, hy, hg, hyp⟩
  · exact .inl ⟨hpass, hp.tail hpx⟩
  · exact .inr ⟨hpriv, y, hy, hg, hyp.tail hpx⟩

theorem Descends.below (h : c.Descends parent child n g) : ReflTransGen c.Holds child n := by
  rcases h with ⟨_, hn⟩ | ⟨_, x, hx, _, hxn⟩
  · exact Conveys.reflTransGen hn
  · exact hx.trans (Conveys.reflTransGen hxn.to_reflTransGen)

/-- **After a merge an item has what it had and what descends to it.** -/
theorem Sound.has_iff_descends (hs : c.Sound) (hr : c.Regranted c')
    (hspec : ∀ y g, c'.Has y g ↔ c.Has y g ∨ y = child ∧ c.Offers parent g ∨
      ∃ p, c.Feeds child .subtree p ∧ c.Holds p y ∧ c'.Offers p g) :
    c'.Has n g ↔ c.Has n g ∨ c.Descends parent child n g := by
  -- what an item at or below has in the end comes to its members, unless the item withholds it
  have hdown : ∀ {p x}, ReflTransGen c.Holds child p → g.isPublic = false → c'.Has p g →
      c.Conveys g p x → c'.Has x g := by
    intro p x hp hpriv hg hpx
    refine (hspec x g).mpr (.inr (.inr ⟨p, hp, hpx.1, offers_iff_passes.mpr ⟨hg, hpriv, ?_⟩⟩))
    exact fun hw => hpx.2 (hr.withholds_iff.mp hw)
  have hall : ∀ {x n}, ReflTransGen c.Holds child x → g.isPublic = false → c'.Has x g →
      ReflTransGen (c.Conveys g) x n → c'.Has n g := by
    intro x n hx hpriv hg hxn
    induction hxn with
    | refl => exact hg
    | tail hxp hpn ih => exact hdown (hx.trans (Conveys.reflTransGen hxp)) hpriv ih hpn
  constructor
  · induction n using hs.holds_induction with
    | hstep n ih =>
      intro hg
      rcases (hspec n g).mp hg with hold | ⟨rfl, ho⟩ | ⟨p, hp, hpn, ho⟩
      · exact .inl hold
      · exact .inr (.inl ⟨offers_iff_passes.mp ho, .refl⟩)
      · obtain ⟨hpg, hpriv, hw⟩ := offers_iff_passes.mp ho
        have hconveys : c.Conveys g p n := ⟨hpn, fun h => hw (hr.withholds_iff.mpr h)⟩
        rcases ih p hpn hpg with hold | hdesc
        · exact .inr (.inr ⟨hpriv, p, hp, hold, .single hconveys⟩)
        · exact .inr (hdesc.tail hconveys)
  · rintro (hold | ⟨hpass, hn⟩ | ⟨hpriv, x, hx, hg, hxn⟩)
    · exact (hspec n g).mpr (.inl hold)
    · have hchild : c'.Has child g :=
        (hspec child g).mpr (.inr (.inl ⟨rfl, offers_iff_passes.mpr hpass⟩))
      exact hall .refl hpass.2.1 hchild hn
    · exact hall hx hpriv ((hspec x g).mpr (.inl hg)) hxn.to_reflTransGen

theorem Sound.on_mergeDown_subtree {i j : Item} (hs : c.Sound) (hp : c.item? parent = some i)
    (hc : c.item? child = some j) :
    ∃ c', (mergeDown parent child .subtree).on c = (.ok (), c') ∧ c.Regranted c' ∧
      (∀ n g, c'.Has n g ↔ c.Has n g ∨ c.Descends parent child n g) ∧
      ∀ n, ¬ReflTransGen c.Holds child n → c'.item? n = c.item? n := by
  obtain ⟨c', hon, hr, hspec⟩ := hs.on_mergeDown hp hc .subtree
  have hhas : ∀ n g, c'.Has n g ↔ c.Has n g ∨ c.Descends parent child n g := fun n g =>
    hs.has_iff_descends hr hspec
  refine ⟨c', hon, hr, hhas, fun n hn => hr.item?_eq fun g => ?_⟩
  rw [hhas]
  exact or_iff_left fun hdesc => hn hdesc.below

/-- **What a merge of one level does**: the item gets what its container passes on, and its members
get what it then passes on itself. -/
theorem Sound.on_mergeDown_oneLevel {i j : Item} (hs : c.Sound) (hp : c.item? parent = some i)
    (hc : c.item? child = some j) :
    ∃ c', (mergeDown parent child .oneLevel).on c = (.ok (), c') ∧ c.Regranted c' ∧
      (∀ n g, c'.Has n g ↔ c.Has n g ∨ n = child ∧ c.Passes parent g ∨
        c.Holds child n ∧ c'.Passes child g) ∧
      ∀ n, n ≠ child → ¬c.Holds child n → c'.item? n = c.item? n := by
  obtain ⟨c', hon, hr, hspec⟩ := hs.on_mergeDown hp hc .oneLevel
  have hhas : ∀ n g, c'.Has n g ↔ c.Has n g ∨ n = child ∧ c.Passes parent g ∨
      c.Holds child n ∧ c'.Passes child g := by
    intro n g
    rw [hspec]
    simp only [Feeds, exists_eq_left, offers_iff_passes]
  refine ⟨c', hon, hr, hhas, fun n hne hn => hr.item?_eq fun g => ?_⟩
  rw [hhas]
  simp only [hne, hn, false_and, or_self, or_false]

end Cabinet

/-! ## Runs -/

namespace Request

section Run

variable {settings : Settings} {epoch : Epoch} {c : Cabinet} {l : List Request}
  {parent child : ItemId} {i j : Item}

/-- **What follows an addition gives every item exactly what descends to it**, in every cabinet that
a run from an empty one comes to and between any two items of it, if grants reach everything below.
If they reach one level, the child gets what the parent passes on, and its members what it then
passes on itself.  Nothing else changes. -/
theorem onAdd_access (hl : AllAllowed Fresh l (.empty settings epoch))
    (hn : linksAll l (.empty settings epoch) < 2 ^ 64 - 1)
    (hc : afterAll l (.empty settings epoch) = c) (hp : c.item? parent = some i)
    (hchild : c.item? child = some j) :
    (∀ p : Propagation, p = .inherit ∨ p = .notFromContainers →
      ∃ c', (p.onAdd parent child).on c = (.ok (), c') ∧ c.Regranted c' ∧
        (∀ n g, c'.Has n g ↔ c.Has n g ∨ c.Descends parent child n g) ∧
        ∀ n, ¬ReflTransGen c.Holds child n → c'.item? n = c.item? n) ∧
    ∃ c', (Propagation.share.onAdd parent child).on c = (.ok (), c') ∧ c.Regranted c' ∧
      (∀ n g, c'.Has n g ↔ c.Has n g ∨ n = child ∧ c.Passes parent g ∨
        c.Holds child n ∧ c'.Passes child g) ∧
      ∀ n, n ≠ child → ¬c.Holds child n → c'.item? n = c.item? n := by
  subst hc
  have hs := sound_afterAll hl hn
  refine ⟨?_, hs.on_mergeDown_oneLevel hp hchild⟩
  rintro p (rfl | rfl)
  · exact hs.on_mergeDown_subtree hp hchild
  · exact hs.on_mergeDown_subtree hp hchild

/-- Below a folder there are a shared notebook and another folder, both with the same document, and
the notebook has a second one. -/
def diamond : List Request :=
  [.insert (.bare 1 (.container .folder) [elevatedRead]), .insert (.bare 2 (.container .folder) []),
    .insert (.bare 3 (.container .sharedNotebook) []), .insert (.bare 4 (.container .folder) []),
    .insert (.bare 5 .document []), .insert (.bare 6 .document []),
    .add (.ofNat 2) (.ofNat 3) (.bare .null), .add (.ofNat 2) (.ofNat 4) (.bare .null),
    .add (.ofNat 3) (.ofNat 5) (.bare .null), .add (.ofNat 4) (.ofNat 5) (.bare .null),
    .add (.ofNat 3) (.ofNat 6) (.bare .null)].map operation

/-- The grant comes down to the first document through the folder, and stops at the notebook on its
way to the second one. -/
theorem onAdd_access_diamond : ∃ c c', afterAll diamond (.empty .standard 0) = c ∧
    (Propagation.inherit.onAdd (.ofNat 1) (.ofNat 2)).on c = (.ok (), c') ∧
    c.Descends (.ofNat 1) (.ofNat 2) (.ofNat 5) elevatedRead ∧
    c'.Has (.ofNat 5) elevatedRead ∧ ¬c'.Has (.ofNat 6) elevatedRead := by
  have hl : AllAllowed Fresh diamond (.empty .standard 0) := by
    refine ⟨rfl, rfl, rfl, rfl, rfl, rfl, trivial, trivial, trivial, trivial, trivial, trivial⟩
  have hn : linksAll diamond (.empty .standard 0) ≤ 11 := linksAll_le_length ..
  have hs := sound_afterAll hl (by omega)
  have hfolder : ∀ {p}, (afterAll diamond (.empty .standard 0)).kind? p =
      some (.container .folder) → ¬(afterAll diamond (.empty .standard 0)).Withholds p
        elevatedRead := by
    rintro p hk ⟨_, hw⟩
    rw [hk] at hw
    cases hw
  have hpasses : (afterAll diamond (.empty .standard 0)).Passes (.ofNat 1) elevatedRead :=
    ⟨has_iff_any.mpr (by cbv), rfl, hfolder (by cbv)⟩
  have hinner : (afterAll diamond (.empty .standard 0)).Conveys elevatedRead
      (.ofNat 2) (.ofNat 4) := ⟨hs.isMember_iff.mp (by cbv), hfolder (by cbv)⟩
  have hdocument : (afterAll diamond (.empty .standard 0)).Conveys elevatedRead
      (.ofNat 4) (.ofNat 5) := ⟨hs.isMember_iff.mp (by cbv), hfolder (by cbv)⟩
  have hdown : (afterAll diamond (.empty .standard 0)).Descends (.ofNat 1) (.ofNat 2) (.ofNat 5)
      elevatedRead := .inl ⟨hpasses, .tail (.single hinner) hdocument⟩
  obtain ⟨i, hi, _⟩ := hpasses.1
  obtain ⟨j, hj⟩ := hs.container_stored hinner.1
  obtain ⟨c', hon, _, hhas, _⟩ := (onAdd_access hl (by omega) rfl hi hj).1 .inherit (.inl rfl)
  refine ⟨_, c', rfl, hon, hdown, (hhas _ _).mpr (.inr hdown), ?_⟩
  have hlast : c' = ((Propagation.inherit.onAdd (.ofNat 1) (.ofNat 2)).on
      (afterAll diamond (.empty .standard 0))).2 := (congrArg Prod.snd hon).symm
  rw [hlast, has_iff_any, Bool.not_eq_true]
  cbv

end Run

end Request

end Filing
