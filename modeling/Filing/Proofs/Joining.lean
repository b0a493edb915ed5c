import Filing.Proofs.Through

/-!
# Joining paths of one cabinet

A path in a cabinet is a list of items, each a container of the next.  No item of it comes twice
where no item lies above itself, and of two such paths neither has two items the other way round.
So both come first upon the same item of the other, and it does not matter which of them is joined
to which.

* `Acyclic.firstOn?_eq`: **two paths come first upon the same item of each other**.
* `chain_merge`: what is joined is a path again, from the top of one to the end of the other.
* `Request.merge_of_paths`: so it is in every cabinet that a run from an empty one comes to.
-/

namespace Filing

open Cabinet Relation

namespace Cabinet

variable {c : Cabinet} {p q : ItemPath} {x : ItemId}

theorem pairwise_of_isChain (hp : p.nodes.IsChain c.Holds) : p.nodes.Pairwise (TransGen c.Holds) :=
  (hp.imp fun _ _ => .single).pairwise

namespace Acyclic

theorem not_both (h : c.Acyclic) (x y : ItemId) (hxy : TransGen c.Holds x y) :
    ¬TransGen c.Holds y x := fun hyx => h x (hxy.trans hyx)

theorem nodup (h : c.Acyclic) (hp : p.nodes.IsChain c.Holds) : p.nodes.Nodup := by
  refine (pairwise_of_isChain hp).imp ?_
  rintro x _ hx rfl
  exact h x hx

/-- **Two paths come first upon the same item of each other.** -/
theorem firstOn?_eq (h : c.Acyclic) (hp : p.nodes.IsChain c.Holds) (hq : q.nodes.IsChain c.Holds) :
    p.firstOn? q = q.firstOn? p :=
  ItemPath.firstOn?_eq_of_pairwise h.not_both (pairwise_of_isChain hp) (pairwise_of_isChain hq)

end Acyclic

/-- The join of two paths that come first upon the same item. -/
structure Joint (c : Cabinet) (p q : ItemPath) (x : ItemId) (j : ItemPath) : Prop where
  mem : x ∈ j.nodes
  holds : j.nodes.IsChain c.Holds
  /-- Each item is of one of the two. -/
  source : ∀ y ∈ j.nodes, y ∈ p.nodes ∨ y ∈ q.nodes
  /-- The top is of one of the two, and the end of the other. -/
  ends : (j.top? = p.top? ∧ j.start? = q.start?) ∨ (j.top? = q.top? ∧ j.start? = p.start?)

theorem Joint.symm {j : ItemPath} (h : c.Joint p q x j) : c.Joint q p x j where
  mem := h.mem
  holds := h.holds
  source y hy := (h.source y hy).symm
  ends := h.ends.symm

theorem joint_append {above below above' below' : List ItemId}
    (hp : (above ++ x :: below).IsChain c.Holds) (hq : (above' ++ x :: below').IsChain c.Holds) :
    c.Joint ⟨above ++ x :: below⟩ ⟨above' ++ x :: below'⟩ x ⟨above ++ x :: below'⟩ where
  mem := List.mem_append_right _ List.mem_cons_self
  holds := List.isChain_split.mpr ⟨(List.isChain_split.mp hp).1, (List.isChain_split.mp hq).2⟩
  source y hy := by
    rcases List.mem_append.mp hy with hm | hm
    · exact .inl (List.mem_append_left _ hm)
    · exact .inr (List.mem_append_right _ hm)
  ends := by
    left
    constructor
    · show (above ++ x :: below').head? = (above ++ x :: below).head?
      cases above <;> rfl
    · show (above ++ x :: below').getLast? = (above' ++ x :: below').getLast?
      rw [List.getLast?_append_cons, List.getLast?_append_cons]

/-- **What is joined is a path again**, from the top of one path to the end of the other. -/
theorem joint_merge (hp : p.nodes.IsChain c.Holds) (hq : q.nodes.IsChain c.Holds)
    (h : p.firstOn? q = some x) (h' : q.firstOn? p = some x) : c.Joint p q x (p.merge q) := by
  obtain ⟨above, below, above', below', rfl, rfl, _, hnot', habove, _⟩ :=
    ItemPath.exists_parts h h'
  rw [ItemPath.merge_append habove hnot']
  split
  · exact joint_append hp hq
  · exact (joint_append hq hp).symm

end Cabinet

/-! ## Runs -/

namespace Request

variable {settings : Settings} {epoch : Epoch} {c : Cabinet} {l : List Request} {p q : ItemPath}

/-- **Two paths are joined to a path**, in every cabinet that a run from an empty one comes to, and
it does not matter in which order.  There is nothing to join exactly if they share no item.
Otherwise both come first upon the same item of the other, the join goes through it, has no item
twice and no item of its own, and leads from the top of one path to the end of the other. -/
theorem merge_of_paths (hl : AllAllowed Fresh l (.empty settings epoch))
    (hn : linksAll l (.empty settings epoch) < 2 ^ 64 - 1)
    (hc : afterAll l (.empty settings epoch) = c) (hp : p.nodes.IsChain c.Holds)
    (hq : q.nodes.IsChain c.Holds) :
    p.merge q = q.merge p ∧
    ((p.merge q).isEmpty = true ↔ ∀ x ∈ p.nodes, x ∉ q.nodes) ∧
    ((p.merge q).isEmpty = false → ∃ x, p.firstOn? q = some x ∧ q.firstOn? p = some x ∧
      x ∈ (p.merge q).nodes ∧ (p.merge q).nodes.IsChain c.Holds ∧ (p.merge q).nodes.Nodup ∧
      (∀ y ∈ (p.merge q).nodes, y ∈ p.nodes ∨ y ∈ q.nodes) ∧
      (((p.merge q).top? = p.top? ∧ (p.merge q).start? = q.start?) ∨
        ((p.merge q).top? = q.top? ∧ (p.merge q).start? = p.start?))) := by
  subst hc
  have ha : (afterAll l (.empty settings epoch)).Acyclic := (sound_afterAll hl hn).acyclic
  have hfirst := ha.firstOn?_eq hp hq
  refine ⟨ItemPath.merge_comm_of_firstOn?_eq hfirst, ?_⟩
  cases hx : p.firstOn? q with
  | none =>
    have hempty := ItemPath.merge_of_firstOn?_eq_none hx
    rw [ItemPath.firstOn?_eq_none_iff] at hx
    rw [hempty]
    exact ⟨iff_of_true rfl hx, nofun⟩
  | some x =>
    have hj := joint_merge hp hq hx (hfirst ▸ hx)
    have hne : (p.merge q).isEmpty ≠ true := by
      intro hempty
      exact List.ne_nil_of_mem hj.mem (List.isEmpty_iff.mp hempty)
    refine ⟨iff_of_false hne fun hnone => ?_, fun _ => ?_⟩
    · rw [ItemPath.firstOn?_eq_none_iff.mpr hnone] at hx
      cases hx
    · exact ⟨x, rfl, hfirst ▸ hx, hj.mem, hj.holds, ha.nodup hj.holds, hj.source, hj.ends⟩

/-- A folder in two others, with two documents. -/
def crossroads : List Request :=
  [.insert (.bare 1 (.container .folder) []), .insert (.bare 2 (.container .folder) []),
    .insert (.bare 3 (.container .folder) []), .insert (.bare 4 .document []),
    .insert (.bare 5 .document []), .add (.ofNat 1) (.ofNat 3) (.bare .null),
    .add (.ofNat 2) (.ofNat 3) (.bare .null), .add (.ofNat 3) (.ofNat 4) (.bare .null),
    .add (.ofNat 3) (.ofNat 5) (.bare .null)].map operation

/-- The paths to the documents meet in the folder at one depth, and the one with the smaller top is
the upper one, whichever is joined to the other. -/
theorem merge_of_paths_crossroads : ∃ c p q, afterAll crossroads (.empty .standard 0) = c ∧
    p = (⟨[.ofNat 1, .ofNat 3, .ofNat 4]⟩ : ItemPath) ∧
    q = (⟨[.ofNat 2, .ofNat 3, .ofNat 5]⟩ : ItemPath) ∧ p.nodes.IsChain c.Holds ∧
    q.nodes.IsChain c.Holds ∧ p.merge q = ⟨[.ofNat 1, .ofNat 3, .ofNat 5]⟩ ∧
    q.merge p = p.merge q ∧ (p.merge q).nodes.IsChain c.Holds := by
  have hl : AllAllowed Fresh crossroads (.empty .standard 0) :=
    ⟨rfl, rfl, rfl, rfl, rfl, trivial, trivial, trivial, trivial, trivial⟩
  have hn : linksAll crossroads (.empty .standard 0) ≤ 9 := linksAll_le_length ..
  have hs := sound_afterAll hl (by omega)
  have hholds : ∀ {parent child}, (afterAll crossroads (.empty .standard 0)).isMember
      ⟨child, parent⟩ = true → (afterAll crossroads (.empty .standard 0)).Holds parent child :=
    hs.isMember_iff.mp
  have hp : List.IsChain (afterAll crossroads (.empty .standard 0)).Holds
      [.ofNat 1, .ofNat 3, .ofNat 4] :=
    .cons_cons (hholds (by cbv)) (.cons_cons (hholds (by cbv)) (.singleton _))
  have hq : List.IsChain (afterAll crossroads (.empty .standard 0)).Holds
      [.ofNat 2, .ofNat 3, .ofNat 5] :=
    .cons_cons (hholds (by cbv)) (.cons_cons (hholds (by cbv)) (.singleton _))
  obtain ⟨hcomm, _, hjoined⟩ := merge_of_paths hl (by omega) rfl
    (p := ⟨[.ofNat 1, .ofNat 3, .ofNat 4]⟩) (q := ⟨[.ofNat 2, .ofNat 3, .ofNat 5]⟩) hp hq
  obtain ⟨_, _, _, _, hchain, _⟩ := hjoined (by decide)
  exact ⟨_, _, _, rfl, rfl, rfl, hp, hq, by decide, hcomm.symm, hchain⟩

end Request

end Filing
