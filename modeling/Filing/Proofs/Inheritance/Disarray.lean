import Filing.Proofs.Ascent.Blame
import Filing.Proofs.Inheritance.Descent

/-!
# The order of inheritance in disarray

In a corrupted cabinet the two sides of a membership need not agree.  An item waits for the
containers that it lists itself, and is told by the containers that list it.  The order that comes
of this is right in what it has: it lists **nothing but what lies below within reach**, and it
leaves out nothing as long as it repeats nothing (`listsOnce_iff`).  But it repeats whoever is told
of more containers than it lists before its turn (`nodup_order_iff_told`); and as it is compared
with what was found by its length alone, a repetition may hide that somebody is left over.

* `Tallies.alike`: where within reach every edge is listed once on both sides, both sides list
  alike.
* `inheritanceOrder_lists`: **what the order lists in any cabinet**, when it lists everything once,
  and when it has containers first.
-/

namespace Filing.Cabinet

open Relation

variable {c : Cabinet} {top x y : ItemId} {reach : Reach}

/-! ## When everything is listed once -/

/-- The list has everything that lies below within reach, once, and nothing else. -/
structure ListsOnce (c : Cabinet) (top : ItemId) (reach : Reach) (l : List ItemId) : Prop where
  nodup : l.Nodup
  mem_iff : ∀ x, x ∈ l ↔ c.LiesBelow top reach x

/-- The list is a beginning of the order in which whoever comes was told by those before of all the
containers that it lists within reach. -/
def InTurn (c : Cabinet) (top : ItemId) (reach : Reach) (l : List ItemId) : Prop :=
  l <+: c.inheritanceOrder top reach ∧
    ∀ l₁ y l₂, l = l₁ ++ y :: l₂ → c.awaited top reach y ≤ told c.children l₁ y

theorem inTurn_iff {l : List ItemId} : c.InTurn top reach l ↔ l <+: c.served top reach := by
  constructor
  · rintro ⟨hl, hdue⟩
    rcases List.prefix_or_prefix_of_prefix hl (c.served_prefix top reach) with h | ⟨r, rfl⟩
    · exact h
    cases r with
    | nil => exact List.append_nil _ ▸ List.prefix_rfl
    | cons z r =>
      -- the first of those that are left over is not in turn
      exfalso
      have hz : z ∈ (c.below top reach).diff (c.served top reach) := by
        rw [inheritanceOrder_eq] at hl
        split at hl
        · exact ((List.prefix_append_right_inj _).mp hl).subset List.mem_cons_self
        · have := hl.length_le
          simp at this
      exact absurd (hdue _ z r rfl) (Nat.not_le_of_lt (told_lt_of_left hz))
  · intro hl
    refine ⟨hl.trans (c.served_prefix top reach), fun l₁ y l₂ heq => ?_⟩
    obtain ⟨r, hr⟩ := hl
    have hserved : c.served top reach = l₁ ++ y :: (l₂ ++ r) := by
      rw [← hr, heq, List.append_assoc, List.cons_append]
    exact awaited_le_of_served hserved

theorem listsOnce_iff : c.ListsOnce top reach (c.inheritanceOrder top reach) ↔
    (c.inheritanceOrder top reach).Nodup := by
  refine ⟨ListsOnce.nodup, fun h => ⟨h, fun x => ?_⟩⟩
  exact (perm_of_nodup_served (nodup_order_iff.mp h)).mem_iff.trans mem_below_iff

/-- **The order repeats nothing exactly if nobody is told of more in its turn than it lists.** -/
theorem nodup_order_iff_told : (c.inheritanceOrder top reach).Nodup ↔ ∀ l y,
    c.InTurn top reach (l ++ [y]) → told c.children l y ≤ c.awaited top reach y := by
  rw [nodup_order_iff]
  constructor
  · intro h l y hl
    obtain ⟨r, hr⟩ := inTurn_iff.mp hl
    rw [List.append_assoc, List.singleton_append] at hr
    refine nodup_served_iff.mp h l y r hr.symm ?_
    exact ((List.prefix_append l (y :: r)).sublist.trans (hr ▸ List.Sublist.refl _)).nodup h
  · intro h
    refine nodup_served_iff.mpr fun l y l' hl _ => h l y (inTurn_iff.mpr ⟨l', ?_⟩)
    rw [hl, List.append_assoc, List.singleton_append]

/-! ## Edges on both sides -/

/-- **Within reach every edge is listed once on both sides**, and each side lists its own edges
only. -/
structure Tallies (c : Cabinet) (top : ItemId) (reach : Reach) : Prop where
  /-- An edge within reach is listed once by its item. -/
  itemSide : ∀ {e edge}, c.edge? e = some edge → c.LiesBelow top reach edge.item →
    c.LiesBelow top reach edge.container →
    ∃ i, c.item? edge.item = some i ∧ i.parentEdges.count e = 1
  /-- It is listed once by its container, or among the deferred edges. -/
  containerSide : ∀ {e edge}, c.edge? e = some edge → c.LiesBelow top reach edge.item →
    c.LiesBelow top reach edge.container →
    ∃ i, c.item? edge.container = some i ∧ i.childEdges.count e + c.deferred.count e = 1
  /-- What an item lists as its membership in a container within reach is one. -/
  parent_lister : ∀ {id i e edge}, c.LiesBelow top reach id → c.item? id = some i →
    e ∈ i.parentEdges → c.edge? e = some edge → c.LiesBelow top reach edge.container →
    edge.item = id
  /-- What a container lists as the membership of an item within reach is one. -/
  child_lister : ∀ {id i e edge}, c.LiesBelow top reach id → c.item? id = some i →
    e ∈ i.childEdges → c.edge? e = some edge → c.LiesBelow top reach edge.item →
    edge.container = id

/-- Whether a reference leads to an edge between two items. -/
def joins (c : Cabinet) (x y : ItemId) (e : EdgeId) : Bool :=
  (c.edge? e).any fun edge => edge.container = x ∧ edge.item = y

theorem joins_iff {e : EdgeId} : c.joins x y e = true ↔
    ∃ edge, c.edge? e = some edge ∧ edge.container = x ∧ edge.item = y := by
  rw [joins, Option.any_eq_true]
  simp

theorem count_parents {i : Item} (hi : c.item? y = some i) : (c.parents y).count x =
    i.parentEdges.countP fun e => (c.edge? e).any (·.container = x) := by
  rw [parents, parentEdges, hi, List.count, List.countP_map, List.countP_filterMap]
  refine List.countP_congr fun e _ => ?_
  cases c.edge? e <;> simp

theorem count_children {i : Item} (hi : c.item? x = some i) : (c.children x).count y =
    (i.childEdges.countP fun e => (c.edge? e).any (·.item = y)) +
      c.deferred.countP (c.joins x y) := by
  rw [children, childEdges, hi, List.count, List.countP_map, List.countP_append,
    List.countP_filterMap, List.countP_filter, List.countP_filterMap]
  refine congrArg₂ (· + ·) (List.countP_congr fun e _ => ?_) (List.countP_congr fun e _ => ?_)
  · cases c.edge? e <;> simp
  · rw [joins]
    cases c.edge? e <;> simp [and_comm]

namespace Tallies

theorem count_parents_eq (h : c.Tallies top reach) (hx : c.LiesBelow top reach x)
    (hy : c.LiesBelow top reach y) {i : Item} (hi : c.item? y = some i) :
    (c.parents y).count x = i.parentEdges.countP (c.joins x y) := by
  rw [count_parents hi]
  refine List.countP_congr fun e hm => ?_
  rw [joins_iff, Option.any_eq_true]
  simp only [decide_eq_true_eq]
  refine exists_congr fun edge => and_congr_right fun he => ⟨fun hc => ⟨hc, ?_⟩, And.left⟩
  exact h.parent_lister hy hi hm he (hc ▸ hx)

theorem count_children_eq (h : c.Tallies top reach) (hx : c.LiesBelow top reach x)
    (hy : c.LiesBelow top reach y) {p : Item} (hp : c.item? x = some p) :
    (c.children x).count y = (p.childEdges ++ c.deferred).countP (c.joins x y) := by
  rw [count_children hp, List.countP_append]
  refine congrArg (· + _) (List.countP_congr fun e hm => ?_)
  rw [joins_iff, Option.any_eq_true]
  simp only [decide_eq_true_eq]
  refine exists_congr fun edge => and_congr_right fun he => ⟨fun hi => ⟨?_, hi⟩, And.right⟩
  exact h.child_lister hx hp hm he (hi ▸ hy)

theorem count_eq_zero (h : c.Tallies top reach) (hx : c.LiesBelow top reach x)
    (hy : c.LiesBelow top reach y) (hnone : ∀ e, c.joins x y e ≠ true) :
    (c.children x).count y = 0 ∧ (c.parents y).count x = 0 := by
  constructor
  · cases hp : c.item? x with
    | none => rw [children, childEdges, hp, List.map_nil, List.count_nil]
    | some p =>
      rw [h.count_children_eq hx hy hp, List.countP_eq_zero]
      exact fun e _ => hnone e
  · cases hi : c.item? y with
    | none => rw [parents, parentEdges, hi, List.map_nil, List.count_nil]
    | some i =>
      rw [h.count_parents_eq hx hy hi, List.countP_eq_zero]
      exact fun e _ => hnone e

/-- **Where every edge is listed once on both sides, both sides list alike.** -/
theorem alike (h : c.Tallies top reach) (hx : c.LiesBelow top reach x)
    (hy : c.LiesBelow top reach y) : (c.children x).count y = (c.parents y).count x := by
  by_cases hj : ∃ e, c.joins x y e = true
  · obtain ⟨e, hj⟩ := hj
    obtain ⟨edge, he, hc, hi⟩ := joins_iff.mp hj
    obtain ⟨i, hi', -⟩ := h.itemSide he (hi ▸ hy) (hc ▸ hx)
    obtain ⟨p, hp, -⟩ := h.containerSide he (hi ▸ hy) (hc ▸ hx)
    rw [hi] at hi'
    rw [hc] at hp
    rw [h.count_parents_eq hx hy hi', h.count_children_eq hx hy hp,
      List.countP_eq_length_filter, List.countP_eq_length_filter]
    -- both sides have the same edges, each of them once
    refine (List.perm_iff_count.mpr fun e => ?_).length_eq
    by_cases hje : c.joins x y e = true
    · obtain ⟨edge, he, rfl, rfl⟩ := joins_iff.mp hje
      obtain ⟨_, h₁, hone⟩ := h.itemSide he hy hx
      obtain ⟨_, h₂, hone'⟩ := h.containerSide he hy hx
      cases hi'.symm.trans h₁
      cases hp.symm.trans h₂
      rw [List.count_filter hje, List.count_filter hje, List.count_append, hone, hone']
    · rw [List.count_eq_zero.mpr fun hm => hje (List.mem_filter.mp hm).2,
        List.count_eq_zero.mpr fun hm => hje (List.mem_filter.mp hm).2]
  · obtain ⟨h₁, h₂⟩ := h.count_eq_zero hx hy fun e he => hj ⟨e, he⟩
    rw [h₁, h₂]

end Tallies

theorem Sound.tallies (h : c.Sound) (top : ItemId) (reach : Reach) : c.Tallies top reach where
  itemSide he _ _ := (h.count_eq_one he).1
  containerSide he _ _ := (h.count_eq_one he).2
  parent_lister _ hi hm he _ := by
    obtain ⟨_, he', hid⟩ := h.parent_stored hi hm
    rwa [Option.some.inj (he.symm.trans he')]
  child_lister _ hi hm he _ := by
    obtain ⟨_, he', hid⟩ := h.child_stored hi hm
    rwa [Option.some.inj (he.symm.trans he')]

/-! ## The order in any cabinet -/

/-- **What the order of inheritance lists**, in every cabinet.  It has nothing but what lies below
within reach.  It has all of this once exactly if it repeats nothing, and exactly if nobody is told
of more containers in its turn than it lists; so it does, cycles or not, where no container lists a
member more often than the member lists the container.  Where every edge within reach is listed once
on both sides and nothing lies below itself, everything comes after its containers. -/
theorem inheritanceOrder_lists (c : Cabinet) (top : ItemId) (reach : Reach) :
    (∀ x ∈ c.inheritanceOrder top reach, c.LiesBelow top reach x) ∧
    (c.ListsOnce top reach (c.inheritanceOrder top reach) ↔
      (c.inheritanceOrder top reach).Nodup) ∧
    (c.ListsOnce top reach (c.inheritanceOrder top reach) ↔ ∀ l y,
      c.InTurn top reach (l ++ [y]) → told c.children l y ≤ c.awaited top reach y) ∧
    ((∀ x y, c.LiesBelow top reach x → c.LiesBelow top reach y →
        (c.children x).count y ≤ (c.parents y).count x) →
      c.ListsOnce top reach (c.inheritanceOrder top reach)) ∧
    (c.Tallies top reach → (∀ x, ¬TransGen (c.LinksBelow top reach) x x) →
      c.ListsOnce top reach (c.inheritanceOrder top reach) ∧
      ∀ l y l', c.inheritanceOrder top reach = l ++ y :: l' →
        ∀ x ∈ c.parents y, x ∈ c.inheritanceOrder top reach → x ∈ l) := by
  refine ⟨fun x hx => mem_below_iff.mp (mem_below_of_mem_order hx), listsOnce_iff,
    listsOnce_iff.trans nodup_order_iff_told, fun hle => listsOnce_iff.mpr (nodup_order_of_le hle),
    fun ht hr => ?_⟩
  have halike : ∀ x y, c.LiesBelow top reach x → c.LiesBelow top reach y →
      (c.children x).count y = (c.parents y).count x := fun x y => ht.alike
  refine ⟨listsOnce_iff.mpr (nodup_order_of_le fun x y hx hy => (halike x y hx hy).le), ?_⟩
  intro l y l' hl x hx hxo
  exact mem_before_of_alike halike hr hl hx hxo

/-- A folder that is its own member has another one as a member, which has a document, and neither
of the two lists its container. -/
def bypassed : Cabinet :=
  { empty { Settings.standard with verifyOnLoad := false } 0 with
    items := .ofList
      [(.ofNat 1, .bare 1 (.container .folder) [Request.elevatedRead]),
        (.ofNat 2, { Item.bare 2 (.container .folder) [] with
          parentEdges := [⟨1⟩], childEdges := [⟨1⟩, ⟨2⟩] }),
        (.ofNat 3, { Item.bare 3 (.container .folder) [] with childEdges := [⟨3⟩] }),
        (.ofNat 4, .bare 4 .document [])]
    edges := .ofList
      [(⟨1⟩, .make ⟨1⟩ ⟨.ofNat 2, .ofNat 2⟩ .anonymous .start),
        (⟨2⟩, .make ⟨2⟩ ⟨.ofNat 3, .ofNat 2⟩ .anonymous .start),
        (⟨3⟩, .make ⟨3⟩ ⟨.ofNat 4, .ofNat 3⟩ .anonymous .start)]
    index := .ofList
      [(⟨.ofNat 2, .ofNat 2⟩, ⟨1⟩), (⟨.ofNat 3, .ofNat 2⟩, ⟨2⟩), (⟨.ofNat 4, .ofNat 3⟩, ⟨3⟩)]
    nextEdge := ⟨4⟩ }

/-- The document is listed twice and the folder itself not at all, so that nothing is merged into
it.  On a cycle whose two sides agree everything is listed once, and in a sound cabinet a document
in two folders comes after both. -/
theorem inheritanceOrder_lists_bypassed :
    (bypassed.inheritanceOrder (.ofNat 2) .subtree = [.ofNat 3, .ofNat 4, .ofNat 4] ∧
      bypassed.LiesBelow (.ofNat 2) .subtree (.ofNat 2) ∧
      ¬bypassed.ListsOnce (.ofNat 2) .subtree (bypassed.inheritanceOrder (.ofNat 2) .subtree) ∧
      ¬(∀ l y, bypassed.InTurn (.ofNat 2) .subtree (l ++ [y]) →
        told bypassed.children l y ≤ bypassed.awaited (.ofNat 2) .subtree y) ∧
      (Propagation.inherit.onAdd (.ofNat 1) (.ofNat 2)).on bypassed = (.ok (), bypassed)) ∧
    ringed.ListsOnce (.ofNat 1) .subtree [.ofNat 1, .ofNat 2, .ofNat 4] ∧
    ∃ c, Request.afterAll Request.diamond (.empty .standard 0) = c ∧
      c.Tallies (.ofNat 2) .subtree ∧ (∀ x, ¬TransGen (c.LinksBelow (.ofNat 2) .subtree) x x) ∧
      ∀ l l', c.inheritanceOrder (.ofNat 2) .subtree = l ++ .ofNat 5 :: l' →
        .ofNat 3 ∈ l ∧ .ofNat 4 ∈ l := by
  refine ⟨?_, ?_, ?_⟩
  · have horder : bypassed.inheritanceOrder (.ofNat 2) .subtree =
        [.ofNat 3, .ofNat 4, .ofNat 4] := by cbv
    obtain ⟨-, hnodup, htold, -, -⟩ := inheritanceOrder_lists bypassed (.ofNat 2) .subtree
    have hnot : ¬bypassed.ListsOnce (.ofNat 2) .subtree
        (bypassed.inheritanceOrder (.ofNat 2) .subtree) := by
      rw [hnodup, horder]
      decide
    exact ⟨horder, .refl, hnot, fun h => hnot (htold.mpr h), by cbv⟩
  · have horder : ringed.inheritanceOrder (.ofNat 1) .subtree =
        [.ofNat 1, .ofNat 2, .ofNat 4] := by cbv
    have hbelow : ringed.below (.ofNat 1) .subtree = [.ofNat 1, .ofNat 2, .ofNat 4] := by cbv
    have hall : ([.ofNat 1, .ofNat 2, .ofNat 4].all fun x : ItemId =>
        [.ofNat 1, .ofNat 2, .ofNat 4].all fun y : ItemId =>
          decide ((ringed.children x).count y ≤ (ringed.parents y).count x)) = true := by cbv
    rw [← horder]
    refine (inheritanceOrder_lists ringed _ _).2.2.2.1 fun x y hx hy => ?_
    rw [← mem_below_iff, hbelow] at hx hy
    exact of_decide_eq_true (List.all_eq_true.mp (List.all_eq_true.mp hall x hx) y hy)
  · have hl : Request.AllAllowed Request.Fresh Request.diamond (.empty .standard 0) :=
      ⟨rfl, rfl, rfl, rfl, rfl, rfl, trivial, trivial, trivial, trivial, trivial, trivial⟩
    have hn : Request.linksAll Request.diamond (.empty .standard 0) ≤ 11 :=
      Request.linksAll_le_length ..
    have hs := Request.sound_afterAll hl (by omega)
    have hacyclic : ∀ x, ¬TransGen
        ((Request.afterAll Request.diamond (.empty .standard 0)).LinksBelow (.ofNat 2) .subtree)
        x x := fun x hx =>
      hs.children_acyclic x (TransGen.mono (fun _ _ hxy => hxy.2.2) x x hx)
    refine ⟨_, rfl, hs.tallies _ _, hacyclic, fun l l' h => ?_⟩
    have hfirst := ((inheritanceOrder_lists _ _ _).2.2.2.2 (hs.tallies _ _) hacyclic).2 l _ l' h
    have hboth : ([.ofNat 3, .ofNat 4].all fun x : ItemId => decide
        (x ∈ (Request.afterAll Request.diamond (.empty .standard 0)).parents (.ofNat 5) ∧
          x ∈ (Request.afterAll Request.diamond (.empty .standard 0)).inheritanceOrder
            (.ofNat 2) .subtree)) = true := by cbv
    have hmem : ∀ x ∈ [.ofNat 3, .ofNat 4], x ∈ l := fun x hx =>
      (of_decide_eq_true (List.all_eq_true.mp hboth x hx)).elim (hfirst x)
    exact ⟨hmem _ List.mem_cons_self, hmem _ (List.mem_cons_of_mem _ List.mem_cons_self)⟩

end Filing.Cabinet
