import Filing.Path
import Mathlib.Data.List.Nodup

/-!
# Joining two paths

Two paths are joined at the first item of the one that is also on the other (`firstOn?`).  It parts
each of them into what is above it and what is below, and the join is the upper part of one and the
lower part of the other (`merge_append`).

* `merge_comm_of_firstOn?_eq`: **the order of the two paths does not matter if either comes first
  upon the same item of the other**.  The rule that tells which of them is the upper one is an order
  of cut paths, and prefers neither only if they are alike (`ranking_swap`, `eq_of_ranking_eq`).
* `firstOn?_eq_of_pairwise`: so it is with paths along one order, of whatever kind.
* `Crossed`: otherwise the paths have two items in opposite order.  One of the joins at least then
  goes on one path down to the second of them, and on the other path comes upon it once more
  (`Crossed.merge_eq`, `Crossed.round_or_round`).
* `merge_comm_iff`: hence **the order does not matter exactly if both come first upon the same
  item**, and exactly if no join has an item twice.
-/

namespace Filing.ItemPath

variable {p q : ItemPath} {above below above' below' l : List ItemId} {x y z : ItemId}

/-! ## Which path is the upper one -/

/-- How two cut paths rank: by the depth at which they were cut, then by what is above, then by what
is below. -/
def ranking (above below above' below' : List ItemId) : Ordering :=
  (compare above'.length above.length).then ((compare above above').then (compare below' below))

theorem isUpper_eq_ranking (above below above' below' : List ItemId) :
    isUpper above below above' below' = (ranking above below above' below' != .gt) := by
  rw [isUpper, ranking, Std.OrientedOrd.eq_swap (a := above'.length)]
  cases compare above.length above'.length with
  | lt => rfl
  | gt => rfl
  | eq => cases compare above above' <;> rfl

theorem ranking_swap (above below above' below' : List ItemId) :
    ranking above' below' above below = (ranking above below above' below').swap := by
  rw [ranking, ranking, Ordering.swap_then, Ordering.swap_then, ← Std.OrientedOrd.eq_swap,
    ← Std.OrientedOrd.eq_swap, ← Std.OrientedOrd.eq_swap]

/-- **Only cut paths that are alike rank alike.** -/
theorem eq_of_ranking_eq (h : ranking above below above' below' = .eq) :
    above = above' ∧ below = below' := by
  rw [ranking, Ordering.then_eq_eq, Ordering.then_eq_eq] at h
  obtain ⟨_, habove, hbelow⟩ := h
  exact ⟨Std.compare_eq_iff_eq.mp habove, (Std.compare_eq_iff_eq.mp hbelow).symm⟩

theorem length_le_of_isUpper (h : isUpper above below above' below' = true) :
    above'.length ≤ above.length := by
  by_contra hlt
  have hlen : compare above.length above'.length = .lt := Nat.compare_eq_lt.mpr (by omega)
  rw [isUpper, hlen] at h
  cases h

/-! ## Where paths meet -/

/-- The first item of a path that is also on the other. -/
def firstOn? (p q : ItemPath) : Option ItemId := p.nodes.find? (· ∈ q.nodes)

theorem firstOn?_eq_none_iff : p.firstOn? q = none ↔ ∀ x ∈ p.nodes, x ∉ q.nodes := by
  simp [firstOn?]

theorem firstOn?_eq_some_iff : p.firstOn? q = some x ↔
    x ∈ q.nodes ∧ ∃ above below, p.nodes = above ++ x :: below ∧ ∀ y ∈ above, y ∉ q.nodes := by
  simp [firstOn?, List.find?_eq_some_iff_append]

theorem cut_append (h : x ∉ above) : cut ⟨above ++ x :: below⟩ x = (above, below) := by
  have habove : ∀ y ∈ above, decide (y ≠ x) = true := by
    intro y hy
    exact decide_eq_true (ne_of_mem_of_not_mem hy h)
  rw [cut, List.takeWhile_append_of_pos habove, List.dropWhile_append_of_pos habove]
  simp

theorem merge_of_firstOn?_eq_none (h : p.firstOn? q = none) : p.merge q = empty := by
  rw [firstOn?] at h
  rw [merge, h]

/-- **The join of two paths that are parted at the first item of one on the other.** -/
theorem merge_append (habove : ∀ y ∈ above, y ∉ above' ++ x :: below') (habove' : x ∉ above') :
    merge ⟨above ++ x :: below⟩ ⟨above' ++ x :: below'⟩ =
      if isUpper above below above' below' then ⟨above ++ x :: below'⟩
      else ⟨above' ++ x :: below⟩ := by
  have hx : x ∈ above' ++ x :: below' := List.mem_append_right _ List.mem_cons_self
  have hnot : x ∉ above := fun hm => habove x hm hx
  have hfirst : (above ++ x :: below).find? (· ∈ above' ++ x :: below') = some x :=
    firstOn?_eq_some_iff.mpr ⟨hx, above, below, rfl, habove⟩
  rw [merge, hfirst]
  simp only [cut_append hnot, cut_append habove']

theorem exists_parts (h : p.firstOn? q = some x) (h' : q.firstOn? p = some x) :
    ∃ above below above' below', p = ⟨above ++ x :: below⟩ ∧ q = ⟨above' ++ x :: below'⟩ ∧
      x ∉ above ∧ x ∉ above' ∧ (∀ y ∈ above, y ∉ q.nodes) ∧ ∀ y ∈ above', y ∉ p.nodes := by
  obtain ⟨_⟩ := p
  obtain ⟨_⟩ := q
  obtain ⟨hq, above, below, rfl, habove⟩ := firstOn?_eq_some_iff.mp h
  obtain ⟨hp, above', below', rfl, habove'⟩ := firstOn?_eq_some_iff.mp h'
  exact ⟨above, below, above', below', rfl, rfl, fun hm => habove x hm hq,
    fun hm => habove' x hm hp, habove, habove'⟩

/-- **The order of two paths does not matter** if either comes first upon the same item of the
other. -/
theorem merge_comm_of_firstOn?_eq (h : p.firstOn? q = q.firstOn? p) : p.merge q = q.merge p := by
  cases hx : p.firstOn? q with
  | none => rw [merge_of_firstOn?_eq_none hx, merge_of_firstOn?_eq_none (h ▸ hx)]
  | some x =>
    obtain ⟨above, below, above', below', rfl, rfl, hnot, hnot', habove, habove'⟩ :=
      exists_parts hx (h ▸ hx)
    rw [merge_append habove hnot', merge_append habove' hnot, isUpper_eq_ranking,
      isUpper_eq_ranking above', ranking_swap above below above' below']
    cases hrank : ranking above below above' below' with
    | lt => rfl
    | gt => rfl
    | eq =>
      obtain ⟨rfl, rfl⟩ := eq_of_ranking_eq hrank
      rfl

/-- **What is joined at one item has no item twice**, as no path has. -/
theorem nodup_merge (hp : p.nodes.Nodup) (hq : q.nodes.Nodup) (h : p.firstOn? q = q.firstOn? p) :
    (p.merge q).nodes.Nodup := by
  cases hx : p.firstOn? q with
  | none =>
    rw [merge_of_firstOn?_eq_none hx]
    exact List.nodup_nil
  | some x =>
    obtain ⟨above, below, above', below', rfl, rfl, _, hnot', habove, habove'⟩ :=
      exists_parts hx (h ▸ hx)
    rw [List.nodup_append] at hp hq
    rw [merge_append habove hnot']
    split
    · refine List.nodup_append.mpr ⟨hp.1, hq.2.1, ?_⟩
      rintro y hy _ hm rfl
      exact habove y hy (List.mem_append_right _ hm)
    · refine List.nodup_append.mpr ⟨hq.1, hp.2.1, ?_⟩
      rintro y hy _ hm rfl
      exact habove' y hy (List.mem_append_right _ hm)

/-! ## Paths that cross -/

/-- Two paths without repetitions that have two items in opposite order.  Of the one path `x` is the
first item on the other, and of the other `y` is the first on the one. -/
structure Crossed (p q : ItemPath) (x y : ItemId)
    (above between below above' between' below' : List ItemId) : Prop where
  left : p = ⟨above ++ x :: (between ++ y :: below)⟩
  right : q = ⟨above' ++ y :: (between' ++ x :: below')⟩
  once : p.nodes.Nodup
  once' : q.nodes.Nodup
  apart : ∀ z ∈ above, z ∉ q.nodes
  apart' : ∀ z ∈ above', z ∉ p.nodes

theorem mem_below_of_ne (hy : y ∈ above ++ x :: below) (habove : y ∉ above) (hne : y ≠ x) :
    y ∈ below := by
  rcases List.mem_append.mp hy with hm | hm
  · exact absurd hm habove
  · exact (List.mem_cons.mp hm).resolve_left hne

/-- **Paths that do not come first upon the same item cross.** -/
theorem exists_crossed (hp : p.nodes.Nodup) (hq : q.nodes.Nodup)
    (h : p.firstOn? q ≠ q.firstOn? p) :
    ∃ x y above between below above' between' below',
      Crossed p q x y above between below above' between' below' := by
  cases hx : p.firstOn? q with
  | none =>
    have hnone : q.firstOn? p = none := by
      refine firstOn?_eq_none_iff.mpr ?_
      intro y hy hm
      exact firstOn?_eq_none_iff.mp hx y hm hy
    exact absurd (hx.trans hnone.symm) h
  | some x =>
    obtain ⟨hxq, above, rest, hpeq, habove⟩ := firstOn?_eq_some_iff.mp hx
    have hxp : x ∈ p.nodes := hpeq ▸ List.mem_append_right _ List.mem_cons_self
    cases hy : q.firstOn? p with
    | none => exact absurd hxp (firstOn?_eq_none_iff.mp hy x hxq)
    | some y =>
      obtain ⟨hyp, above', rest', hqeq, habove'⟩ := firstOn?_eq_some_iff.mp hy
      have hyq : y ∈ q.nodes := hqeq ▸ List.mem_append_right _ List.mem_cons_self
      have hne : y ≠ x := by
        rintro rfl
        exact h (hx.trans hy.symm)
      -- each path comes to the item of the other after its own
      have hrest : y ∈ rest :=
        mem_below_of_ne (hpeq ▸ hyp) (fun hm => habove y hm hyq) hne
      have hrest' : x ∈ rest' :=
        mem_below_of_ne (hqeq ▸ hxq) (fun hm => habove' x hm hxp) hne.symm
      obtain ⟨between, below, rfl⟩ := List.append_of_mem hrest
      obtain ⟨between', below', rfl⟩ := List.append_of_mem hrest'
      exact ⟨x, y, above, between, below, above', between', below', congrArg mk hpeq,
        congrArg mk hqeq, hp, hq, habove, habove'⟩

/-- **Paths along one order come first upon the same item**, if the order has no way back. -/
theorem firstOn?_eq_of_pairwise {r : ItemId → ItemId → Prop} (hr : ∀ x y, r x y → ¬r y x)
    (hp : p.nodes.Pairwise r) (hq : q.nodes.Pairwise r) : p.firstOn? q = q.firstOn? p := by
  have hne : ∀ {x y}, r x y → x ≠ y := by
    rintro x _ hxx rfl
    exact hr x x hxx hxx
  by_contra h
  obtain ⟨x, y, above, between, below, above', between', below', hc⟩ :=
    exists_crossed (hp.imp hne) (hq.imp hne) h
  -- each would come before the other
  rw [hc.left, List.pairwise_append, List.pairwise_cons] at hp
  rw [hc.right, List.pairwise_append, List.pairwise_cons] at hq
  have hxy : r x y := hp.2.1.1 y (List.mem_append_right _ List.mem_cons_self)
  have hyx : r y x := hq.2.1.1 x (List.mem_append_right _ List.mem_cons_self)
  exact hr x y hxy hyx

/-- Each path begins on the other, and has nothing of its own below the beginning of the other. -/
def Knotted (p q : ItemPath) : Prop :=
  ∃ x y, p.top? = some x ∧ q.top? = some y ∧ x ≠ y ∧ x ∈ q.nodes ∧ y ∈ p.nodes ∧
    (∀ z ∈ (p.cut y).2, z ∈ q.nodes) ∧ ∀ z ∈ (q.cut x).2, z ∈ p.nodes

namespace Crossed

variable {between between' : List ItemId}

theorem symm (h : Crossed p q x y above between below above' between' below') :
    Crossed q p y x above' between' below' above between below :=
  ⟨h.right, h.left, h.once', h.once, h.apart', h.apart⟩

theorem mem_left (h : Crossed p q x y above between below above' between' below') :
    z ∈ p.nodes ↔ z ∈ above ∨ z = x ∨ z ∈ between ∨ z = y ∨ z ∈ below := by
  simp [h.left]

theorem mem_right (h : Crossed p q x y above between below above' between' below') :
    z ∈ q.nodes ↔ z ∈ above' ∨ z = y ∨ z ∈ between' ∨ z = x ∨ z ∈ below' :=
  h.symm.mem_left

theorem not_mem_above (h : Crossed p q x y above between below above' between' below')
    (hz : z = x ∨ z ∈ between ∨ z = y ∨ z ∈ below) : z ∉ above := by
  intro hm
  have hp := h.once
  rw [h.left, List.nodup_append] at hp
  refine hp.2.2 z hm z ?_ rfl
  simpa using hz

theorem ne_of_mem (h : Crossed p q x y above between below above' between' below')
    (hz : z ∈ between ∨ z = y ∨ z ∈ below) : z ≠ x := by
  rintro rfl
  have hp := h.once
  rw [h.left, List.nodup_append, List.nodup_cons] at hp
  refine hp.2.1.1 ?_
  simpa using hz

theorem ne (h : Crossed p q x y above between below above' between' below') : x ≠ y :=
  (h.ne_of_mem (.inr (.inl rfl))).symm

theorem not_mem_between (h : Crossed p q x y above between below above' between' below')
    (hz : z = y ∨ z ∈ below) : z ∉ between := by
  intro hm
  have hp := h.once
  rw [h.left, List.nodup_append, List.nodup_cons, List.nodup_append] at hp
  exact hp.2.1.2.2.2 z hm z (List.mem_cons.mpr hz) rfl

/-- **A join goes straight down at the one item, or round by the other.** -/
theorem direct_or_round (h : Crossed p q x y above between below above' between' below') :
    (p.merge q = ⟨above ++ x :: below'⟩ ∧ above'.length < above.length) ∨
      p.merge q = ⟨above' ++ y :: (between' ++ x :: (between ++ y :: below))⟩ := by
  have hx : x ∉ above' ++ y :: between' := by
    simp only [List.mem_append, List.mem_cons, not_or]
    exact ⟨h.symm.not_mem_above (.inr (.inr (.inl rfl))), h.ne,
      h.symm.not_mem_between (.inl rfl)⟩
  have hsplit : above' ++ y :: (between' ++ x :: below') = (above' ++ y :: between') ++ x :: below' := by
    simp
  have habove : ∀ z ∈ above, z ∉ (above' ++ y :: between') ++ x :: below' := by
    intro z hz
    rw [← hsplit]
    have := h.apart z hz
    rwa [h.right] at this
  rw [h.left, h.right, hsplit, merge_append habove hx]
  split
  · next hupper =>
    have hlen := length_le_of_isUpper hupper
    rw [List.length_append, List.length_cons] at hlen
    exact .inl ⟨rfl, by omega⟩
  · right
    simp

theorem not_nodup_round : ¬(above' ++ y :: (between' ++ x :: (between ++ y :: below))).Nodup := by
  intro hn
  rw [List.nodup_append, List.nodup_cons] at hn
  exact hn.2.1.1 (by simp)

theorem not_nodup (h : Crossed p q x y above between below above' between' below') :
    ¬((p.merge q).nodes.Nodup ∧ (q.merge p).nodes.Nodup) := by
  rintro ⟨hn, hn'⟩
  rcases h.direct_or_round with ⟨_, hlt⟩ | hround
  · rcases h.symm.direct_or_round with ⟨_, hlt'⟩ | hround'
    · omega
    · rw [hround'] at hn'
      exact not_nodup_round hn'
  · rw [hround] at hn
    exact not_nodup_round hn

theorem mem_merge (h : Crossed p q x y above between below above' between' below') :
    x ∈ (p.merge q).nodes := by
  rcases h.direct_or_round with ⟨hdirect, _⟩ | hround
  · rw [hdirect]
    exact List.mem_append_right _ List.mem_cons_self
  · rw [hround]
    simp

theorem not_mem_direct (h : Crossed p q x y above between below above' between' below') :
    y ∉ above ++ x :: below' := by
  simp only [List.mem_append, List.mem_cons, not_or]
  exact ⟨h.not_mem_above (.inr (.inr (.inl rfl))), h.ne.symm,
    fun hm => h.symm.ne_of_mem (.inr (.inr hm)) rfl⟩

theorem round_of_mem_iff (h : Crossed p q x y above between below above' between' below')
    (hall : ∀ z, z ∈ (p.merge q).nodes ↔ z ∈ (q.merge p).nodes) :
    p.merge q = ⟨above' ++ y :: (between' ++ x :: (between ++ y :: below))⟩ := by
  refine h.direct_or_round.resolve_left ?_
  rintro ⟨hdirect, _⟩
  have hy := (hall y).mpr h.symm.mem_merge
  rw [hdirect] at hy
  exact h.not_mem_direct hy

/-- **The joins differ.**  If both go round, one of them has the first item once and the other has it
twice. -/
theorem merge_ne (h : Crossed p q x y above between below above' between' below') :
    p.merge q ≠ q.merge p := by
  intro heq
  have hround := h.round_of_mem_iff fun z => by rw [heq]
  have hround' := h.symm.round_of_mem_iff fun z => by rw [heq]
  have hcount : (p.merge q).nodes.count x = 1 := by
    have habove' := List.count_eq_zero.mpr (h.symm.not_mem_above (z := x) (by simp))
    have hbetween' := List.count_eq_zero.mpr (h.symm.not_mem_between (.inl rfl))
    have hrest : (between ++ y :: below).count x = 0 := by
      refine List.count_eq_zero.mpr fun hm => h.ne_of_mem (z := x) ?_ rfl
      simpa using hm
    rw [hround, List.count_append, List.count_cons_of_ne h.ne.symm, List.count_append,
      List.count_cons_self, habove', hbetween', hrest]
  have hcount' : 2 ≤ (q.merge p).nodes.count x := by
    rw [hround', List.count_append, List.count_cons_self, List.count_append,
      List.count_cons_of_ne h.ne.symm, List.count_append, List.count_cons_self]
    omega
  rw [← heq] at hcount'
  omega

theorem eq_nil_of_mem_iff (h : Crossed p q x y above between below above' between' below')
    (hall : ∀ z, z ∈ (p.merge q).nodes ↔ z ∈ (q.merge p).nodes) : above = [] := by
  refine List.eq_nil_iff_forall_not_mem.mpr fun z hz => ?_
  have hround := h.round_of_mem_iff hall
  have hround' := h.symm.round_of_mem_iff fun z => (hall z).symm
  have hzq := h.apart z hz
  rw [h.mem_right] at hzq
  have hzp := mt (h.not_mem_above (z := z)) (not_not.mpr hz)
  have hm : z ∈ (q.merge p).nodes := by
    rw [hround']
    exact List.mem_append_left _ hz
  rw [← hall, hround] at hm
  simp only [List.mem_append, List.mem_cons] at hm
  tauto

theorem mem_of_mem_iff (h : Crossed p q x y above between below above' between' below')
    (hall : ∀ z, z ∈ (p.merge q).nodes ↔ z ∈ (q.merge p).nodes) :
    ∀ z ∈ below, z ∈ q.nodes := by
  intro z hz
  have hround := h.round_of_mem_iff hall
  have hround' := h.symm.round_of_mem_iff fun z => (hall z).symm
  have habove : z ∉ above := h.not_mem_above (.inr (.inr (.inr hz)))
  have hbetween : z ∉ between := h.not_mem_between (.inr hz)
  have hm : z ∈ (p.merge q).nodes := by
    rw [hround]
    simp [hz]
  rw [hall, hround'] at hm
  simp only [List.mem_append, List.mem_cons] at hm
  rw [h.mem_right]
  tauto

theorem eq_nil_of_top? (h : Crossed p q x y above between below above' between' below')
    (htop : p.top? = some z) (hz : z ∈ q.nodes) : above = [] ∧ z = x := by
  rw [h.left, top?] at htop
  cases above with
  | nil => exact ⟨rfl, (Option.some.inj htop).symm⟩
  | cons a rest =>
    obtain rfl : a = z := Option.some.inj htop
    exact absurd hz (h.apart a List.mem_cons_self)

theorem cut_left (h : Crossed p q x y above between below above' between' below') :
    p.cut y = (above ++ x :: between, below) := by
  have hsplit : above ++ x :: (between ++ y :: below) = (above ++ x :: between) ++ y :: below := by
    simp
  have hy : y ∉ above ++ x :: between := by
    simp only [List.mem_append, List.mem_cons, not_or]
    exact ⟨h.not_mem_above (.inr (.inr (.inl rfl))), h.ne.symm, h.not_mem_between (.inl rfl)⟩
  rw [h.left, hsplit, cut_append hy]

/-- **The joins have the same items** exactly if the paths are knotted. -/
theorem mem_iff_knotted (h : Crossed p q x y above between below above' between' below') :
    (∀ z, z ∈ (p.merge q).nodes ↔ z ∈ (q.merge p).nodes) ↔ p.Knotted q := by
  constructor
  · intro hall
    obtain rfl := h.eq_nil_of_mem_iff hall
    obtain rfl := h.symm.eq_nil_of_mem_iff fun z => (hall z).symm
    refine ⟨x, y, by rw [h.left]; rfl, by rw [h.right]; rfl, h.ne, by simp [h.mem_right],
      by simp [h.mem_left], ?_, ?_⟩
    · rw [h.cut_left]
      exact h.mem_of_mem_iff hall
    · rw [h.symm.cut_left]
      exact h.symm.mem_of_mem_iff fun z => (hall z).symm
  · rintro ⟨_, _, htop, htop', _, hx, hy, hbelow, hbelow'⟩ z
    obtain ⟨rfl, rfl⟩ := h.eq_nil_of_top? htop hx
    obtain ⟨rfl, rfl⟩ := h.symm.eq_nil_of_top? htop' hy
    rw [h.cut_left] at hbelow
    rw [h.symm.cut_left] at hbelow'
    have hround := h.direct_or_round.resolve_left fun hd => Nat.not_lt_zero _ hd.2
    have hround' := h.symm.direct_or_round.resolve_left fun hd => Nat.not_lt_zero _ hd.2
    have hz := hbelow z
    have hz' := hbelow' z
    rw [h.mem_right] at hz
    rw [h.mem_left] at hz'
    rw [hround, hround']
    simp only [List.mem_append, List.mem_cons, List.not_mem_nil, false_or] at hz hz' ⊢
    -- what is below one item is met on the way round through the other path
    grind

end Crossed

/-! ## When the order does not matter -/

/-- **The order of two paths without repetitions does not matter** exactly if both come first upon
the same item of the other, or upon none; and exactly if neither join has an item twice.  The joins
have the same items then, and besides exactly if the two paths are knotted. -/
theorem merge_comm_iff (hp : p.nodes.Nodup) (hq : q.nodes.Nodup) :
    (p.merge q = q.merge p ↔ p.firstOn? q = q.firstOn? p) ∧
    (p.merge q = q.merge p ↔ (p.merge q).nodes.Nodup ∧ (q.merge p).nodes.Nodup) ∧
    ((∀ x, x ∈ (p.merge q).nodes ↔ x ∈ (q.merge p).nodes) ↔
      p.merge q = q.merge p ∨ p.Knotted q) := by
  by_cases hfirst : p.firstOn? q = q.firstOn? p
  · have heq := merge_comm_of_firstOn?_eq hfirst
    refine ⟨iff_of_true heq hfirst, iff_of_true heq ?_, iff_of_true ?_ (.inl heq)⟩
    · exact ⟨nodup_merge hp hq hfirst, nodup_merge hq hp hfirst.symm⟩
    · intro x
      rw [heq]
  · obtain ⟨x, y, above, between, below, above', between', below', hc⟩ :=
      exists_crossed hp hq hfirst
    refine ⟨iff_of_false hc.merge_ne hfirst, iff_of_false hc.merge_ne hc.not_nodup, ?_⟩
    rw [hc.mem_iff_knotted]
    exact (or_iff_right hc.merge_ne).symm

/-- Of two paths that have two items in opposite order, one joined to the other misses the item that
the other joined to the one has. -/
theorem merge_comm_iff_opposed : ∃ p q : ItemPath, p = ⟨[.ofNat 1, .ofNat 2, .ofNat 3]⟩ ∧
    q = ⟨[.ofNat 2, .ofNat 1]⟩ ∧ p.nodes.Nodup ∧ q.nodes.Nodup ∧ p.firstOn? q ≠ q.firstOn? p ∧
    p.merge q ≠ q.merge p ∧ p.merge q = ⟨[.ofNat 2, .ofNat 1, .ofNat 2, .ofNat 3]⟩ ∧
    q.merge p = ⟨[.ofNat 1, .ofNat 2, .ofNat 1]⟩ := by
  have hp : ([.ofNat 1, .ofNat 2, .ofNat 3] : List ItemId).Nodup := by decide
  have hq : ([.ofNat 2, .ofNat 1] : List ItemId).Nodup := by decide
  have hfirst : firstOn? ⟨[.ofNat 1, .ofNat 2, .ofNat 3]⟩ ⟨[.ofNat 2, .ofNat 1]⟩ ≠
      firstOn? ⟨[.ofNat 2, .ofNat 1]⟩ ⟨[.ofNat 1, .ofNat 2, .ofNat 3]⟩ := by decide
  exact ⟨_, _, rfl, rfl, hp, hq, hfirst, mt (merge_comm_iff hp hq).1.mp hfirst, by decide,
    by decide⟩

end Filing.ItemPath
