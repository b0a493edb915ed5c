import Filing.Proofs.Cabinet.Sound
import Filing.Proofs.Inheritance.Turns

/-!
# Containers come first

What is found below an item is **what lies below within reach as the containers list it**, in any
cabinet (`mem_below_iff`).  Of these some are placed, each when it was told of all the containers
that it lists within reach, and the rest is left over (`served`).  Nothing is missing from the order
unless something is repeated in it (`perm_of_nodup_served`).

* `nodup_order_of_le`: **nothing is repeated where no container lists a member more often than the
  member lists the container**, cycles or not.
* `mem_before_of_alike`: **no item comes before one of its containers** where both sides list alike
  and nothing lies below itself.
* `Sound.inheritanceOrder_spec`: so it is in a sound cabinet.
* `Sound.mem_inheritanceOrder_iff`: there what is visited is what lies below within reach
  (`Within`), as the stored edges tell.
* `Sound.onward_inheritanceOrder`: so in a sound cabinet the members of an item that is visited are
  visited later, whatever comes of it meanwhile.
-/

namespace Filing

open Relation

variable {next : ItemId → List ItemId}

/-! ## Visiting -/

/-- The members of whatever is visited are visited later. -/
def Onward (next : ItemId → List ItemId) : List ItemId → Prop
  | [] => True
  | x :: rest => (∀ y ∈ next x, y ∈ rest) ∧ Onward next rest

theorem onward_of_pairwise {l : List ItemId} (hl : l.Pairwise fun a b => a ∉ next b)
    (hself : ∀ x ∈ l, x ∉ next x) (hclosed : ∀ x ∈ l, ∀ y ∈ next x, y ∈ l) : Onward next l := by
  induction l with
  | nil => trivial
  | cons x rest ih =>
    obtain ⟨hx, hrest⟩ := List.pairwise_cons.mp hl
    refine ⟨fun y hy => ?_, ih hrest (fun b hb => hself b (List.mem_cons_of_mem _ hb)) ?_⟩
    · apply (List.mem_cons.mp (hclosed x List.mem_cons_self y hy)).resolve_left
      rintro rfl
      exact hself y List.mem_cons_self hy
    · intro b hb y hy
      apply (List.mem_cons.mp (hclosed b (List.mem_cons_of_mem _ hb) y hy)).resolve_left
      rintro rfl
      exact hx b hb hy

namespace Cabinet

variable {c : Cabinet} {top x y : ItemId} {reach : Reach}

/-! ## Finding -/

theorem nodup_eraseDups (l : List ItemId) : l.eraseDups.Nodup := by
  induction hn : l.length using Nat.strong_induction_on generalizing l with
  | _ n ih =>
    cases l with
    | nil => exact List.nodup_nil
    | cons a l =>
      rw [List.eraseDups_cons, List.nodup_cons, List.mem_eraseDups]
      refine ⟨fun hm => by simp at hm, ih _ ?_ _ rfl⟩
      rw [← hn, List.length_cons]
      exact Nat.lt_succ_of_le (List.length_filter_le _ _)

theorem memberIds_nodup (c : Cabinet) : c.memberIds.Nodup := nodup_eraseDups _

theorem mem_memberIds_iff {id : ItemId} : id ∈ c.memberIds ↔ ∃ p, c.Holds p id := by
  rw [memberIds, List.mem_eraseDups, List.mem_map]
  constructor
  · rintro ⟨edge, hm, rfl⟩
    obtain ⟨e, he⟩ := SortedMap.mem_values_iff.mp hm
    exact ⟨_, e, edge, he, rfl, rfl⟩
  · rintro ⟨_, e, edge, he, _, rfl⟩
    exact ⟨edge, SortedMap.mem_values_iff.mpr ⟨e, he⟩, rfl⟩

theorem below_subperm (c : Cabinet) (id : ItemId) (reach : Reach) :
    (c.below id reach).Subperm (id :: c.memberIds.erase id) := by
  cases reach with
  | subtree => exact discover_subperm [id] _
  | oneLevel =>
    obtain ⟨new, hq, hp, _⟩ := meet_spec (c.children id) (c.memberIds.erase id) []
    rw [below, hq, List.nil_append]
    exact (List.subperm_cons id).mpr ((List.sublist_append_left _ _).subperm.trans hp.subperm)

theorem below_nodup (c : Cabinet) (id : ItemId) (reach : Reach) : (c.below id reach).Nodup := by
  obtain ⟨l, hp, hs⟩ := c.below_subperm id reach
  refine hp.nodup_iff.mp (hs.nodup (List.nodup_cons.mpr ⟨?_, c.memberIds_nodup.erase id⟩))
  exact c.memberIds_nodup.not_mem_erase

theorem mem_below_self (c : Cabinet) (id : ItemId) (reach : Reach) : id ∈ c.below id reach := by
  cases reach with
  | subtree => exact mem_discover_of_queue List.mem_cons_self
  | oneLevel => exact List.mem_cons_self

/-- What lies below an item within reach, as the containers list it. -/
def LiesBelow (c : Cabinet) (top : ItemId) : Reach → ItemId → Prop
  | .subtree, x => ReflTransGen (fun a b => b ∈ c.children a) top x
  | .oneLevel, x => x = top ∨ x ∈ c.children top

theorem mem_memberIds_of_children (h : y ∈ c.children x) : y ∈ c.memberIds := by
  obtain ⟨edge, hedge, rfl⟩ := List.mem_map.mp h
  obtain ⟨_, e, _, he, _⟩ := mem_childEdges_iff.mp hedge
  exact mem_memberIds_iff.mpr ⟨_, e, edge, he, rfl, rfl⟩

theorem below_closed (hx : x ∈ c.below top .subtree) (hy : y ∈ c.children x) :
    y ∈ c.below top .subtree := by
  by_cases htop : y = top
  · exact htop ▸ c.mem_below_self top .subtree
  · exact discover_closed hx hy ((List.mem_erase_of_ne htop).mpr (mem_memberIds_of_children hy))

/-- **Exactly what lies below within reach is found**, in any cabinet. -/
theorem mem_below_iff : x ∈ c.below top reach ↔ c.LiesBelow top reach x := by
  cases reach with
  | subtree =>
    constructor
    · intro hx
      obtain ⟨y, hy, hyx⟩ := reached_of_mem_discover hx
      exact List.mem_singleton.mp hy ▸ hyx
    · intro hx
      induction hx with
      | refl => exact c.mem_below_self top .subtree
      | tail _ hxy ih => exact below_closed ih hxy
  | oneLevel =>
    obtain ⟨new, hq, _, hnew⟩ := meet_spec (c.children top) (c.memberIds.erase top) []
    rw [below, List.mem_cons]
    refine or_congr_right' fun hne => ⟨fun hx => ?_, fun hx => ?_⟩
    · exact (mem_meet hx).resolve_right List.not_mem_nil
    · rw [hq, List.nil_append]
      exact hnew x hx ((List.mem_erase_of_ne hne).mpr (mem_memberIds_of_children hx))

/-! ## Placing -/

/-- The number of containers within reach that an item lists. -/
def awaited (c : Cabinet) (top : ItemId) (reach : Reach) (y : ItemId) : Nat :=
  (c.parents y).countP (· ∈ c.below top reach)

/-- The containers that are waited for at the beginning. -/
def waitingAtFirst (c : Cabinet) (top : ItemId) (reach : Reach) : Waiting :=
  .ofList ((c.below top reach).map fun y => (y, c.awaited top reach y))

/-- The items that wait for nothing at the beginning. -/
def readyAtFirst (c : Cabinet) (top : ItemId) (reach : Reach) : List ItemId :=
  (c.below top reach).filter fun y => (c.waitingAtFirst top reach).find? y = some 0

/-- What is placed before anything that is left over. -/
def served (c : Cabinet) (top : ItemId) (reach : Reach) : List ItemId :=
  (place c.children (c.readyAtFirst top reach) (c.below top reach) (c.waitingAtFirst top reach)).1

theorem inheritanceOrder_eq (c : Cabinet) (top : ItemId) (reach : Reach) :
    c.inheritanceOrder top reach =
      if (c.served top reach).length < (c.below top reach).length then
        c.served top reach ++ (c.below top reach).diff (c.served top reach)
      else c.served top reach := by
  rw [served, ← place_snd]
  rfl

theorem find?_waitingAtFirst (hy : y ∈ c.below top reach) :
    (c.waitingAtFirst top reach).find? y = some (c.awaited top reach y) := by
  refine (SortedMap.find?_ofList ?_).mpr (List.mem_map.mpr ⟨y, hy, rfl⟩)
  rw [List.map_map, show ((·.1) ∘ fun y => (y, c.awaited top reach y)) = fun y => y from rfl,
    List.map_id']
  exact c.below_nodup top reach

theorem unrepeated_atFirst (c : Cabinet) (top : ItemId) (reach : Reach) :
    Unrepeated c.children (c.awaited top reach) [] (c.readyAtFirst top reach)
      (c.below top reach) (c.waitingAtFirst top reach) where
  unplaced_nodup := c.below_nodup top reach
  waiting_eq y hy := find?_waitingAtFirst hy
  due y hy := by
    obtain ⟨hm, hw⟩ := List.mem_filter.mp hy
    rw [find?_waitingAtFirst hm] at hw
    exact (Option.some.inj (of_decide_eq_true hw)).le
  mem_ready y hy hle := List.mem_filter.mpr ⟨hy, by
    rw [find?_waitingAtFirst hy, Nat.le_zero.mp hle]
    rfl⟩
  ready_nodup := (c.below_nodup top reach).filter _
  mem_unplaced y hy := (List.mem_filter.mp hy).1
  told_le y _ := Nat.zero_le _

theorem served_subset (hx : x ∈ c.served top reach) : x ∈ c.below top reach :=
  (mem_of_mem_place hx).elim (fun h => (List.mem_filter.mp h).1) id

theorem awaited_le_of_served {l l' : List ItemId} (h : c.served top reach = l ++ y :: l') :
    c.awaited top reach y ≤ told c.children l y :=
  (c.unrepeated_atFirst top reach).due_of_place h

theorem told_lt_of_left (h : y ∈ (c.below top reach).diff (c.served top reach)) :
    told c.children (c.served top reach) y < c.awaited top reach y := by
  rw [served, ← place_snd] at h
  exact (c.unrepeated_atFirst top reach).lt_of_left h

theorem nodup_served_iff : (c.served top reach).Nodup ↔ ∀ l y l',
    c.served top reach = l ++ y :: l' → l.Nodup →
      told c.children l y ≤ c.awaited top reach y :=
  (c.unrepeated_atFirst top reach).nodup_place_iff

/-- Nothing is missing where nothing is repeated. -/
theorem perm_of_nodup_served (h : (c.served top reach).Nodup) :
    (c.inheritanceOrder top reach).Perm (c.below top reach) := by
  have hsub : (c.served top reach).Subperm (c.below top reach) :=
    h.subperm fun _ => served_subset
  rw [inheritanceOrder_eq]
  split
  · exact List.subperm_append_diff_self_of_count_le (List.subperm_ext_iff.mp hsub)
  · next hlen => exact hsub.perm_of_length_le (Nat.le_of_not_lt hlen)

theorem served_prefix (c : Cabinet) (top : ItemId) (reach : Reach) :
    c.served top reach <+: c.inheritanceOrder top reach := by
  rw [inheritanceOrder_eq]
  split
  · exact List.prefix_append _ _
  · exact List.prefix_rfl

theorem mem_below_of_mem_order (h : x ∈ c.inheritanceOrder top reach) : x ∈ c.below top reach := by
  rw [inheritanceOrder_eq] at h
  split at h
  · exact (List.mem_append.mp h).elim served_subset fun h => List.diff_subset _ _ h
  · exact served_subset h

theorem nodup_order_iff : (c.inheritanceOrder top reach).Nodup ↔ (c.served top reach).Nodup :=
  ⟨(c.served_prefix top reach).sublist.nodup, fun h =>
    (perm_of_nodup_served h).nodup_iff.mpr (c.below_nodup top reach)⟩

/-- Where no container within reach lists a member more often than the member lists it, nothing is
repeated. -/
theorem nodup_order_of_le (h : ∀ x y, c.LiesBelow top reach x → c.LiesBelow top reach y →
    (c.children x).count y ≤ (c.parents y).count x) : (c.inheritanceOrder top reach).Nodup := by
  refine nodup_order_iff.mpr (nodup_served_iff.mpr fun l y l' hl hln => ?_)
  have hmem : ∀ x ∈ l ++ y :: l', c.LiesBelow top reach x := fun x hx =>
    mem_below_iff.mp (served_subset (hl ▸ hx))
  have hy := hmem y (List.mem_append_right _ List.mem_cons_self)
  refine (told_le_countP hln fun x hx => h x y (hmem x (List.mem_append_left _ hx)) hy).trans ?_
  refine List.countP_mono_left fun x _ hx => decide_eq_true ?_
  exact mem_below_iff.mpr (hmem x (List.mem_append_left _ (of_decide_eq_true hx)))

/-! ## Containers first -/

/-- A container lists a member, and both lie below within reach. -/
def LinksBelow (c : Cabinet) (top : ItemId) (reach : Reach) (x y : ItemId) : Prop :=
  c.LiesBelow top reach x ∧ c.LiesBelow top reach y ∧ y ∈ c.children x

section Alike

variable (h : ∀ x y, c.LiesBelow top reach x → c.LiesBelow top reach y →
  (c.children x).count y = (c.parents y).count x)
include h

theorem told_eq_of_alike {l : List ItemId} (hn : l.Nodup)
    (hl : ∀ x ∈ l, c.LiesBelow top reach x) (hy : c.LiesBelow top reach y) :
    told c.children l y = (c.parents y).countP (· ∈ l) :=
  told_eq_countP hn fun x hx => h x y (hl x hx) hy

theorem nodup_served_of_alike : (c.served top reach).Nodup :=
  nodup_order_iff.mp (nodup_order_of_le fun x y hx hy => (h x y hx hy).le)

/-- **Nobody is left over where nothing lies below itself.**  Of those left over a first one would
have been told of all its containers. -/
theorem served_eq_of_alike (hr : ∀ x, ¬TransGen (c.LinksBelow top reach) x x) :
    c.served top reach = c.inheritanceOrder top reach := by
  have hleft : (c.below top reach).diff (c.served top reach) = [] := by
    by_contra hne
    obtain ⟨z, hz, hmin⟩ := Graph.exists_minimal hr hne
    have hzb := mem_below_iff.mp (List.diff_subset _ _ hz)
    have hlt := told_lt_of_left hz
    rw [told_eq_of_alike h (nodup_served_of_alike h)
      (fun x hx => mem_below_iff.mp (served_subset hx)) hzb] at hlt
    -- a container of it was not placed either
    refine absurd (List.countP_mono_left fun p hp hpb => ?_) (Nat.not_le_of_lt hlt)
    by_contra hps
    have hpb := of_decide_eq_true hpb
    refine hmin p (List.mem_diff_of_mem hpb fun hm => hps (decide_eq_true hm)) ?_
    refine ⟨mem_below_iff.mp hpb, hzb, List.count_pos_iff.mp ?_⟩
    rw [h p z (mem_below_iff.mp hpb) hzb]
    exact List.count_pos_iff.mpr hp
  rw [inheritanceOrder_eq, hleft, List.append_nil, ite_self]

/-- **Containers come first** where both sides list alike and nothing lies below itself. -/
theorem mem_before_of_alike (hr : ∀ x, ¬TransGen (c.LinksBelow top reach) x x) {l l' : List ItemId}
    (hl : c.inheritanceOrder top reach = l ++ y :: l') (hx : x ∈ c.parents y)
    (hxo : x ∈ c.inheritanceOrder top reach) : x ∈ l := by
  rw [← served_eq_of_alike h hr] at hl hxo
  have hmem : ∀ x ∈ l ++ y :: l', x ∈ c.below top reach := fun x hx => served_subset (hl ▸ hx)
  have hbefore : ∀ x ∈ l, x ∈ c.below top reach := fun x hx => hmem x (List.mem_append_left _ hx)
  have hln : l.Nodup := (List.nodup_append.mp (hl ▸ nodup_served_of_alike h)).1
  have hle := awaited_le_of_served hl
  rw [told_eq_of_alike h hln (fun x hx => mem_below_iff.mp (hbefore x hx))
    (mem_below_iff.mp (hmem y (List.mem_append_right _ List.mem_cons_self))), awaited,
    List.countP_eq_length_filter, List.countP_eq_length_filter] at hle
  -- the containers among those before are all that there are within reach
  have hsub : ((c.parents y).filter (· ∈ l)).Sublist
      ((c.parents y).filter (· ∈ c.below top reach)) :=
    List.monotone_filter_right _ fun x hx => decide_eq_true (hbefore x (of_decide_eq_true hx))
  have hxb : x ∈ (c.parents y).filter (· ∈ c.below top reach) :=
    List.mem_filter.mpr ⟨hx, decide_eq_true (served_subset hxo)⟩
  rw [← hsub.eq_of_length_le hle] at hxb
  exact of_decide_eq_true (List.mem_filter.mp hxb).2

end Alike

/-! ## In a sound cabinet -/

namespace Sound

theorem children_acyclic (h : c.Sound) : ∀ x, ¬TransGen (fun a b => b ∈ c.children a) x x := by
  intro x hx
  exact h.acyclic x (TransGen.mono (fun a b hab => h.mem_children_iff.mp hab) x x hx)

/-- **The order of inheritance** has everything that is found, and no item before one of its
containers. -/
theorem inheritanceOrder_spec (h : c.Sound) (id : ItemId) (reach : Reach) :
    (c.inheritanceOrder id reach).Perm (c.below id reach) ∧
      (c.inheritanceOrder id reach).Pairwise fun a b => a ∉ c.children b := by
  have halike : ∀ x y, c.LiesBelow id reach x → c.LiesBelow id reach y →
      (c.children x).count y = (c.parents y).count x := fun x y _ _ => h.count_children x y
  have hacyclic : ∀ x, ¬TransGen (c.LinksBelow id reach) x x := fun x hx =>
    h.children_acyclic x (TransGen.mono (fun _ _ hxy => hxy.2.2) x x hx)
  have hperm := perm_of_nodup_served (nodup_served_of_alike halike)
  refine ⟨hperm, List.pairwise_iff_forall_sublist.mpr fun {a b} hsub hab => ?_⟩
  -- `b` holds `a`, so it would come both before and after it
  obtain ⟨l₁, l₂, hl, ha, hb⟩ := List.cons_sublist_iff.mp hsub
  obtain ⟨l, l', rfl⟩ := List.append_of_mem ha
  have hsplit : c.inheritanceOrder id reach = l ++ a :: (l' ++ l₂) := by
    rw [hl, List.append_assoc, List.cons_append]
  have hparent : b ∈ c.parents a := by
    rw [← List.count_pos_iff, ← h.count_children, List.count_pos_iff]
    exact hab
  have hafter : b ∈ a :: (l' ++ l₂) :=
    List.mem_cons_of_mem _ (List.mem_append_right _ (List.singleton_sublist.mp hb))
  have hbefore : b ∈ l := mem_before_of_alike halike hacyclic hsplit hparent
    (hsplit ▸ List.mem_append_right _ hafter)
  have hn := hperm.nodup_iff.mpr (c.below_nodup id reach)
  rw [hsplit] at hn
  exact (List.nodup_append.mp hn).2.2 b hbefore b hafter rfl

theorem onward_inheritanceOrder (h : c.Sound) (id : ItemId) :
    Onward c.children (c.inheritanceOrder id .subtree) := by
  obtain ⟨hp, hw⟩ := h.inheritanceOrder_spec id .subtree
  refine onward_of_pairwise hw (fun x _ hx => h.children_acyclic x (.single hx)) ?_
  intro x hx y hy
  exact hp.mem_iff.mpr (below_closed (hp.mem_iff.mp hx) hy)

theorem mem_inheritanceOrder_self (h : c.Sound) (id : ItemId) (reach : Reach) :
    id ∈ c.inheritanceOrder id reach :=
  (h.inheritanceOrder_spec id reach).1.mem_iff.mpr (c.mem_below_self id reach)

theorem holds_induction (h : c.Sound) {P : ItemId → Prop}
    (hstep : ∀ id, (∀ p, c.Holds p id → P p) → P id) (id : ItemId) : P id := by
  refine Graph.induction_of_acyclic h.acyclic (l := c.edges.values.map (·.container)) ?_ hstep id
  rintro p x ⟨e, edge, he, rfl, _⟩
  exact List.mem_map.mpr ⟨edge, SortedMap.mem_values_iff.mpr ⟨e, he⟩, rfl⟩

end Sound

/-- What lies below an item within reach. -/
def Within (c : Cabinet) (top : ItemId) : Reach → ItemId → Prop
  | .subtree, x => ReflTransGen c.Holds top x
  | .oneLevel, x => x = top ∨ c.Holds top x

namespace Sound

theorem liesBelow_iff_within (h : c.Sound) {top x : ItemId} {reach : Reach} :
    c.LiesBelow top reach x ↔ c.Within top reach x := by
  cases reach with
  | subtree =>
    have hrel : (fun a b => b ∈ c.children a) = c.Holds := by
      funext a b
      exact propext h.mem_children_iff
    rw [LiesBelow, hrel, Within]
  | oneLevel => exact or_congr_right h.mem_children_iff

/-- **What is visited** is what lies below within reach. -/
theorem mem_inheritanceOrder_iff (h : c.Sound) {top x : ItemId} {reach : Reach} :
    x ∈ c.inheritanceOrder top reach ↔ c.Within top reach x :=
  (h.inheritanceOrder_spec top reach).1.mem_iff.trans
    (Cabinet.mem_below_iff.trans h.liesBelow_iff_within)

theorem stored_of_mem_inheritanceOrder (h : c.Sound) {id x : ItemId} {reach : Reach}
    (hid : ∃ i, c.item? id = some i) (hx : x ∈ c.inheritanceOrder id reach) :
    ∃ i, c.item? x = some i := by
  have hx := (c.below_subperm id reach).subset
    ((h.inheritanceOrder_spec id reach).1.mem_iff.mp hx)
  rcases List.mem_cons.mp hx with rfl | hx
  · exact hid
  · obtain ⟨p, hp⟩ := mem_memberIds_iff.mp (List.mem_of_mem_erase hx)
    exact h.item_stored hp

end Sound

end Cabinet

end Filing
