import Filing.Proofs.Disposal
import Filing.Proofs.Membership

/-!
# The order in which members are listed

A container lists its members in the order in which their edges were made, but for one thing: an
edge that is to be listed later waits among the deferred ones, and an edge that is made in the
meantime is listed before it.  When the waiting edges are listed they are entered at the end, so
the younger edge stays in front.

* `Change.numbers_sublist`: a change that makes no edge at most takes edges out of the listing of a
  container, and keeps the others in their order.
* `Request.numbers_after`: **a request that makes an edge puts it before the waiting edges if it is
  listed at once** (`Passes`), and else at the end.
* `Request.listings_ascend_iff`: **in every run the listing of a container is in the order of the
  edges exactly if no edge in it has overtaken another** (`Overtakes`).
-/

namespace Filing

open Cabinet

namespace Cabinet

variable {c c₁ c' : Cabinet} {p : ItemId} {e : EdgeId}

/-! ## Listings by number -/

/-- The numbers of the edges of the members of a container, in the order of its listing. -/
def numbers (c : Cabinet) (p : ItemId) : List EdgeId := (c.childEdges p).map (·.id)

/-- The edges that a container lists itself. -/
def listed (c : Cabinet) (p : ItemId) : List EdgeId := (c.item? p).elim [] (·.childEdges)

/-- The edges of a container that wait to be listed. -/
def waiting (c : Cabinet) (p : ItemId) : List EdgeId :=
  c.deferred.filter fun e => (c.edge? e).any (·.container = p)

theorem Sound.mem_numbers_iff (h : c.Sound) :
    e ∈ c.numbers p ↔ ∃ edge, c.edge? e = some edge ∧ edge.container = p := by
  rw [numbers, List.mem_map]
  simp only [h.mem_childEdges_iff]
  constructor
  · rintro ⟨edge, ⟨e', he, hp⟩, rfl⟩
    exact ⟨edge, h.edge_id he ▸ he, hp⟩
  · rintro ⟨edge, he, hp⟩
    exact ⟨edge, ⟨e, he, hp⟩, h.edge_id he⟩

theorem Indexed.map_id_filterMap_edge? (h : c.Indexed) {l : List EdgeId}
    (hl : ∀ e ∈ l, ∃ edge, c.edge? e = some edge) : (l.filterMap c.edge?).map (·.id) = l := by
  rw [List.map_filterMap]
  refine (List.filterMap_congr fun e hm => ?_).trans List.filterMap_some
  obtain ⟨edge, he⟩ := hl e hm
  rw [he, Option.map_some, h.edge_id he]

/-- **A container has the edges that it lists, and after them those that wait.** -/
theorem Sound.numbers_eq (h : c.Sound) (p : ItemId) : c.numbers p = c.listed p ++ c.waiting p := by
  rw [numbers, listed, waiting]
  cases hi : c.item? p with
  | none =>
    have hnone : ∀ e ∈ c.deferred, ¬(c.edge? e).any (·.container = p) = true := by
      intro e _ hany
      obtain ⟨edge, he, hp⟩ := (Option.any_eq_true _ _).mp hany
      obtain ⟨i, hi', _⟩ := h.child_listed he
      rw [of_decide_eq_true hp, hi] at hi'
      cases hi'
    rw [childEdges, hi, List.filter_eq_nil_iff.mpr hnone]
    rfl
  | some i =>
    rw [childEdges_eq hi]
    refine h.toIndexed.map_id_filterMap_edge? fun e hm => ?_
    rcases List.mem_append.mp hm with hm | hm
    · obtain ⟨edge, he, _⟩ := h.child_stored hi hm
      exact ⟨edge, he⟩
    · exact h.deferred_stored (List.mem_filter.mp hm).1

theorem Coherent.not_deferred_of_listed (h : c.Coherent) (hm : e ∈ c.listed p) :
    e ∉ c.deferred := by
  rw [listed] at hm
  cases hi : c.item? p with
  | none =>
    rw [hi] at hm
    cases hm
  | some i =>
    rw [hi] at hm
    exact h.child_not_deferred hi hm

/-- The one member entered the container before the other. -/
def EnteredBefore (c : Cabinet) (p x y : ItemId) : Prop :=
  ∃ edge edge', c.edgeBetween? ⟨x, p⟩ = some edge ∧ c.edgeBetween? ⟨y, p⟩ = some edge' ∧
    edge.id.toNat < edge'.id.toNat

theorem Sound.pairwise_children_iff (h : c.Sound) : (c.children p).Pairwise (c.EnteredBefore p) ↔
    (c.childEdges p).Pairwise fun edge edge' => edge.id.toNat < edge'.id.toNat := by
  have hbetween : ∀ {edge}, edge ∈ c.childEdges p → c.edgeBetween? ⟨edge.item, p⟩ = some edge := by
    intro edge hm
    obtain ⟨e, he, rfl⟩ := h.mem_childEdges_iff.mp hm
    exact h.edgeBetween?_key he
  rw [children, List.pairwise_map]
  refine List.Pairwise.iff_of_mem fun hm hm' => ?_
  rw [EnteredBefore, hbetween hm, hbetween hm']
  simp

/-! ## Changes that make no edge -/

theorem waiting_markEdge (c : Cabinet) (e : EdgeId) (deleted : Bool) (now : Timestamp)
    (p : ItemId) : (c.markEdge e deleted now).waiting p = c.waiting p := by
  refine List.filter_congr fun e' _ => ?_
  rw [edge?_markEdge]
  split
  · cases c.edge? e' <;> rfl
  · rfl

/-- **A change that makes no edge lists nothing anew**, and keeps what is listed in its order. -/
theorem Change.numbers_sublist (h : Change 0 c c') (ho : c.Orderly) (p : ItemId) :
    (c'.numbers p).Sublist (c.numbers p) := by
  have hs := ho.toSound
  have hs' := h.sound hs ho.toAccounted
  cases h with
  | retouch h => rw [numbers, numbers, h.childEdges]
  | unlink h =>
    obtain ⟨e, hu⟩ := unlinked_of_unlink? h
    rw [numbers, numbers, (hu.takenOut hs (generation_of_unlink? h)).childEdges hs.toIndexed]
    exact List.filter_sublist.map _
  | flush => rw [numbers, numbers, childEdges_flushDeferred]
  | mark e deleted now =>
    rw [hs'.numbers_eq, hs.numbers_eq, waiting_markEdge]
    rfl
  | @insert _ item hn =>
    have hlisted : (c.insertItem item).listed p = c.listed p := by
      rw [listed, listed, item?_insertItem]
      split
      · next hp =>
        rw [hp, hn]
        rfl
      · rfl
    rw [hs'.numbers_eq, hs.numbers_eq, hlisted]
    rfl
  | @erase _ x =>
    have hlisted : ((c.eraseItem x).listed p).Sublist (c.listed p) := by
      rw [listed, listed, item?_eraseItem]
      split
      · exact List.nil_sublist _
      · rfl
    rw [hs'.numbers_eq, hs.numbers_eq]
    exact hlisted.append (List.Sublist.refl _)

theorem Changes.numbers_sublist {n : Nat} (h : Changes n c c') (hn : n = 0) (ho : c.Orderly)
    (p : ItemId) : (c'.numbers p).Sublist (c.numbers p) := by
  induction h with
  | refl => exact List.Sublist.refl _
  | @tail n k _ _ _ hc hk ih =>
    obtain ⟨rfl, rfl⟩ : n = 0 ∧ k = 0 := by omega
    exact (hk.numbers_sublist (hc.orderly ho) p).trans (ih rfl ho)

/-- No edge is in a list that it was not in. -/
structure Fewer (c c' : Cabinet) : Prop where
  listed : ∀ p, c'.listed p ⊆ c.listed p
  deferred : c'.deferred ⊆ c.deferred

theorem Retouched.fewer (h : c.Retouched c') : c.Fewer c' where
  listed p e hm := by
    rw [Cabinet.listed] at hm ⊢
    cases hi' : c'.item? p with
    | none =>
      rw [hi'] at hm
      cases hm
    | some i' =>
      obtain ⟨i, hi, ho⟩ := h.item_before hi'
      rw [hi', Option.elim_some, ← Item.childEdges_eq_of_outline ho] at hm
      rwa [hi]
  deferred := h.deferred ▸ List.Subset.refl _

theorem Fewer.ending : Ending Fewer where
  refl _ := ⟨fun _ => List.Subset.refl _, List.Subset.refl _⟩
  trans h h' := ⟨fun p => List.Subset.trans (h'.listed p) (h.listed p),
    List.Subset.trans h'.deferred h.deferred⟩
  unlink? {c c' key} hu := by
    obtain ⟨e, hu⟩ := unlinked_of_unlink? hu
    refine ⟨fun p e' hm => ?_, ?_⟩
    · rw [Cabinet.listed, hu.item?] at hm
      rw [Cabinet.listed]
      cases hi : c.item? p with
      | none =>
        rw [hi] at hm
        cases hm
      | some i =>
        rw [hi] at hm
        change e' ∈ (if _ then _ else _) at hm
        split at hm
        · exact List.mem_of_mem_erase hm
        · exact hm
    · rcases hu.on_container with ⟨_, hd⟩ | ⟨_, _, hd⟩ <;> rw [hd]
      · exact List.Subset.refl _
      · exact List.erase_subset
  onRemove p parent child c := (p.retouched_onRemove parent child c).fewer

/-! ## A new edge -/

section WithEdge

variable {key : Membership} (owner : Principal) (defer : Bool) (now : Timestamp)

theorem listed_withEdge (hp : ∃ i, c.item? key.container = some i) :
    (c.withEdge key owner defer now).listed p =
      if p = key.container ∧ defer = false then c.listed p ++ [c.nextEdge] else c.listed p := by
  rw [listed, listed, item?_withEdge]
  cases hi : c.item? p with
  | none =>
    rw [if_neg]
    · rfl
    · rintro ⟨rfl, _⟩
      obtain ⟨i, hi'⟩ := hp
      cases hi.symm.trans hi'
  | some i => rfl

theorem Coherent.waiting_withEdge (h : c.Coherent) (hn : c.edge? c.nextEdge = none) :
    (c.withEdge key owner defer now).waiting p =
      if p = key.container ∧ defer = true then c.waiting p ++ [c.nextEdge] else c.waiting p := by
  -- the edges that waited are what they were
  have hold : (c.deferred.filter fun e =>
      ((c.withEdge key owner defer now).edge? e).any (·.container = p)) = c.waiting p := by
    refine List.filter_congr fun e hm => ?_
    obtain ⟨edge, he⟩ := h.deferred_stored hm
    rw [edge?_withEdge, if_neg (ne_nextEdge hn he)]
  rw [waiting, deferred_withEdge]
  cases defer with
  | false =>
    rw [if_neg (by simp), if_neg (by simp)]
    exact hold
  | true =>
    rw [if_pos rfl, List.filter_append, hold]
    by_cases hp : p = key.container
    · rw [if_pos ⟨hp, rfl⟩, List.filter_cons_of_pos]
      · rfl
      · rw [edge?_withEdge, if_pos rfl]
        simp [Edge.make, hp]
    · rw [if_neg fun h => hp h.1, List.filter_cons_of_neg]
      · simp
      · rw [edge?_withEdge, if_pos rfl]
        simp [Edge.make, Ne.symm hp]

end WithEdge

/-! ## Where an edge is made -/

/-- What an operation enters an edge in: the cabinet as it is, or what a removal leaves of it. -/
structure Admitting (c c₁ : Cabinet) (key : Membership) : Prop where
  changes : Changes 0 c c₁
  fewer : c.Fewer c₁
  checked : ∃ policy, c₁.checkAdd key.container key.item policy = .ok ()
  free : c₁.index.find? key = none

end Cabinet

namespace Request

variable {c : Cabinet} {r : Request} {p : ItemId}

/-- **A request that makes an edge enters it in the cabinet as it is, or in what a removal leaves of
it**, and enters no other edge in a list. -/
theorem admitting_of_links (hl : c.Listed) (h : r.links c = 1) :
    ∃ c₁ key owner defer now, c.Admitting c₁ key ∧
      (c₁.withEdge key owner defer now).Retouched (r.after c) := by
  cases r with
  | operation op =>
    -- only an addition or a move takes the next number
    have hne : (op.after c).nextEdge ≠ c.nextEdge := by
      intro heq
      rw [links, Operation.links, if_pos heq] at h
      cases h
    show ∃ c₁ key owner defer now, c.Admitting c₁ key ∧
      (c₁.withEdge key owner defer now).Retouched (op.after c)
    cases op with
    | insert item => exact absurd rfl hne
    | add parent child a =>
      rw [Operation.after_add] at hne ⊢
      obtain ⟨hadd, hfree, hr⟩ := (on_add_cases parent child a c).resolve_left
        fun hsame => hne (congrArg Cabinet.nextEdge hsame)
      exact ⟨c, _, _, _, _, ⟨.refl c, Fewer.ending.refl c, ⟨_, hadd⟩, hfree⟩, hr⟩
    | remove parent child q =>
      rw [Operation.after_remove] at hne
      exact absurd (changes_remove parent child q c).nextEdge hne
    | move item origin target acting unrestricted now =>
      rw [Operation.after_move] at hne ⊢
      have hremove := changes_remove origin item c.settings.movePolicy c
      rcases on_move_cases item origin target acting unrestricted now c with hm | hm | hm <;>
        rw [hm] at hne ⊢
      · exact absurd rfl hne
      · exact absurd hremove.nextEdge hne
      · obtain ⟨hadd, hfree, hr⟩ := (on_add_cases target item _ _).resolve_left
          fun hsame => hne ((congrArg Cabinet.nextEdge hsame).trans hremove.nextEdge)
        exact ⟨_, _, _, _, _, ⟨hremove, Fewer.ending.remove .., ⟨_, hadd⟩, hfree⟩, hr⟩
    | mark key deleted now =>
      rcases Operation.after_mark c key deleted now with hm | ⟨e, hm⟩ <;> rw [hm] at hne <;>
        exact absurd rfl hne
    | setDeleted x deleted =>
      rcases Operation.after_setDeleted c x deleted with hm | hm <;> rw [hm] at hne <;>
        exact absurd rfl hne
    | setAccess x access =>
      rcases Operation.after_setAccess c x access with hm | hm <;> rw [hm] at hne <;>
        exact absurd rfl hne
    | destroy x =>
      rw [Operation.after_destroy] at hne
      exact absurd (changes_destroy hl x).nextEdge hne
    | flush => exact absurd (Change.flush c).nextEdge hne
  | _ => cases h

/-- The request makes the edge `late`, which is listed at once, while the edge `early` waits to be
listed. -/
def Passes (r : Request) (c : Cabinet) (late early : EdgeId) : Prop :=
  c.nextEdge = late ∧ r.links c = 1 ∧ late ∉ (r.after c).deferred ∧ early ∈ c.deferred

/-- **A request takes edges out of a listing, or puts the new edge between those that it does not
pass and those that it passes.** -/
theorem numbers_after (ho : c.Orderly) (hf : r.Fresh c)
    (hn : c.nextEdge.toNat + r.links c < 2 ^ 64) (p : ItemId) :
    ((r.after c).numbers p).Sublist (c.numbers p) ∨
      ∃ front back, (r.after c).numbers p = front ++ c.nextEdge :: back ∧
        (front ++ back).Sublist (c.numbers p) ∧ (∀ e ∈ front, ¬r.Passes c c.nextEdge e) ∧
        ∀ e ∈ back, r.Passes c c.nextEdge e := by
  by_cases hlinks : r.links c = 1
  · obtain ⟨c₁, key, owner, defer, now, ⟨hchanges, hfewer, ⟨policy, hadd⟩, hfree⟩, hr⟩ :=
      admitting_of_links ho.toListed hlinks
    have hs₁ := (hchanges.orderly ho).toSound
    have hnone := (hchanges.orderly ho).nextEdge_free
    have hnext : c₁.nextEdge = c.nextEdge := hchanges.nextEdge
    have hsub := hchanges.numbers_sublist rfl ho p
    obtain ⟨_, ⟨i, _, hi, _⟩, _⟩ := checkAdd_eq_ok_iff.mp hadd
    have hs₂ := hs₁.withEdge owner defer now hnone hadd hfree
    have hnumbers : (r.after c).numbers p = (c₁.withEdge key owner defer now).listed p ++
        (c₁.withEdge key owner defer now).waiting p := by
      rw [← hs₂.numbers_eq, numbers, numbers, hr.childEdges]
    rw [listed_withEdge owner defer now ⟨i, hi⟩, hs₁.waiting_withEdge owner defer now hnone, hnext]
      at hnumbers
    have hdeferred : (r.after c).deferred =
        if defer then c₁.deferred ++ [c.nextEdge] else c₁.deferred := by
      rw [hr.deferred, deferred_withEdge, hnext]
    rw [hs₁.numbers_eq] at hsub
    by_cases hp : p = key.container
    · refine .inr ?_
      cases defer with
      | false =>
        -- the new edge comes after those that are listed, and passes those that wait
        rw [if_pos ⟨hp, rfl⟩, if_neg (by simp), List.append_assoc] at hnumbers
        refine ⟨_, _, hnumbers, hsub, fun e hm hpasses => ?_, fun e hm => ⟨rfl, hlinks, ?_, ?_⟩⟩
        · exact ho.not_deferred_of_listed (hfewer.listed p hm) hpasses.2.2.2
        · rw [hdeferred, if_neg (by simp), ← hnext]
          exact hs₁.not_mem_deferred hnone
        · exact hfewer.deferred (List.mem_filter.mp hm).1
      | true =>
        -- a deferred edge comes last of all
        rw [if_neg (by simp), if_pos ⟨hp, rfl⟩, ← List.append_assoc] at hnumbers
        refine ⟨_, [], hnumbers, by rwa [List.append_nil], fun e _ hpasses => ?_, nofun⟩
        refine hpasses.2.2.1 ?_
        rw [hdeferred, if_pos rfl]
        exact List.mem_append_right _ List.mem_cons_self
    · rw [if_neg fun h => hp h.1, if_neg fun h => hp h.1] at hnumbers
      exact .inl (hnumbers ▸ hsub)
  · have hzero : r.links c = 0 := by
      have := r.links_le_one c
      omega
    refine .inl ?_
    rcases changes_links ho.toListed hf with ⟨settings, rfl⟩ | hchanges
    · exact List.Sublist.refl _
    · exact hchanges.numbers_sublist hzero ho p

/-! ## Runs -/

/-- One of the requests makes the edge `late`, which is listed at once, while the edge `early`
waits. -/
def Overtakes (l : List Request) (c : Cabinet) (late early : EdgeId) : Prop :=
  ∃ l₁ r l₂, l = l₁ ++ r :: l₂ ∧ r.Passes (afterAll l₁ c) late early

/-- The edge is listed before the other one in its turn, as the older one, or it has overtaken the
other one. -/
def Precedes (l : List Request) (c : Cabinet) (e e' : EdgeId) : Prop :=
  (e.toNat < e'.toNat ∧ ¬Overtakes l c e' e) ∨ (e'.toNat < e.toNat ∧ Overtakes l c e e')

section Run

variable {settings : Settings} {epoch : Epoch} {l : List Request} {late early : EdgeId}

theorem overtakes_concat : Overtakes (l ++ [r]) c late early ↔
    Overtakes l c late early ∨ r.Passes (afterAll l c) late early := by
  constructor
  · rintro ⟨l₁, r', l₂, heq, hpasses⟩
    rcases List.eq_nil_or_concat' l₂ with rfl | ⟨l₂, r'', rfl⟩
    · obtain ⟨rfl, hr⟩ := List.append_inj' heq rfl
      cases hr
      exact .inr hpasses
    · rw [← List.cons_append, ← List.append_assoc] at heq
      exact .inl ⟨l₁, r', l₂, (List.append_inj' heq rfl).1, hpasses⟩
  · rintro (⟨l₁, r', l₂, rfl, hpasses⟩ | hpasses)
    · exact ⟨l₁, r', l₂ ++ [r], by rw [List.append_assoc, List.cons_append], hpasses⟩
    · exact ⟨l, r, [], rfl, hpasses⟩

/-- **What overtakes is younger**, and its number was used. -/
theorem Overtakes.lt (ho : c.Orderly) (hl : AllAllowed Fresh l c)
    (hn : c.nextEdge.toNat + linksAll l c < 2 ^ 64) (h : Overtakes l c late early) :
    early.toNat < late.toNat ∧ late.toNat < (afterAll l c).nextEdge.toNat := by
  obtain ⟨l₁, r, l₂, rfl, rfl, hlinks, _, hwaits⟩ := h
  obtain ⟨_, hnext⟩ := orderly_afterAll ho hl hn
  obtain ⟨hl₁, _⟩ := allAllowed_append.mp hl
  rw [linksAll_append, linksAll, hlinks] at hn hnext
  obtain ⟨ho₁, hnext₁⟩ := orderly_afterAll ho hl₁ (by omega)
  obtain ⟨edge, he⟩ := ho₁.deferred_stored hwaits
  exact ⟨ho₁.number_lt he, by omega⟩

theorem pairwise_numbers_after {c₀ : Cabinet} (hc : afterAll l c₀ = c) (ho : c.Orderly)
    (hf : r.Fresh c) (hn : c.nextEdge.toNat + r.links c < 2 ^ 64)
    (hlate : ∀ {late early}, Overtakes l c₀ late early → late.toNat < c.nextEdge.toNat)
    (h : (c.numbers p).Pairwise (Precedes l c₀)) :
    ((r.after c).numbers p).Pairwise (Precedes (l ++ [r]) c₀) := by
  have hused : ∀ {e}, e ∈ c.numbers p → e.toNat < c.nextEdge.toNat := by
    intro e hm
    obtain ⟨edge, he, _⟩ := ho.mem_numbers_iff.mp hm
    exact ho.number_lt he
  have hover : ∀ {late early}, Overtakes (l ++ [r]) c₀ late early ↔
      Overtakes l c₀ late early ∨ r.Passes c late early := hc ▸ overtakes_concat
  -- the request overtakes nothing with an edge that was there before
  have hold : (c.numbers p).Pairwise (Precedes (l ++ [r]) c₀) := by
    have hsame : ∀ {late early}, late ∈ c.numbers p →
        (Overtakes (l ++ [r]) c₀ late early ↔ Overtakes l c₀ late early) := by
      intro late early hm
      refine hover.trans (or_iff_left fun hpasses => ?_)
      exact absurd (hused hm) (hpasses.1 ▸ Nat.lt_irrefl _)
    refine h.imp_of_mem fun hm hm' h => ?_
    rwa [Precedes, hsame hm, hsame hm']
  rcases numbers_after ho hf hn p with hsub | ⟨front, back, heq, hsub, hfront, hback⟩
  · exact hold.sublist hsub
  · obtain ⟨hpf, hpb, hcross⟩ := List.pairwise_append.mp (hold.sublist hsub)
    have hbound : ∀ {e}, e ∈ front ++ back → e.toNat < c.nextEdge.toNat :=
      fun hm => hused (hsub.subset hm)
    rw [heq]
    refine List.pairwise_append.mpr ⟨hpf, List.pairwise_cons.mpr ⟨fun e hm => ?_, hpb⟩, ?_⟩
    · exact .inr ⟨hbound (List.mem_append_right _ hm), hover.mpr (.inr (hback e hm))⟩
    · intro e hm e' hm'
      rcases List.mem_cons.mp hm' with rfl | hm'
      · refine .inl ⟨hbound (List.mem_append_left _ hm), fun h => ?_⟩
        rcases hover.mp h with h | hpasses
        · exact Nat.lt_irrefl _ (hlate h)
        · exact hfront e hm hpasses
      · exact hcross e hm e' hm'

/-- **Every listing is in turn.** -/
theorem pairwise_numbers_afterAll (hl : AllAllowed Fresh l (.empty settings epoch))
    (hn : linksAll l (.empty settings epoch) < 2 ^ 64 - 1) (p : ItemId) :
    ((afterAll l (.empty settings epoch)).numbers p).Pairwise
      (Precedes l (.empty settings epoch)) := by
  induction l using List.reverseRecOn with
  | nil => exact List.Pairwise.nil
  | append_singleton l r ih =>
    have hempty := orderly_empty settings epoch
    obtain ⟨hl, hf, _⟩ := allAllowed_append.mp hl
    have hn' := linksAll_lt hn
    rw [linksAll_append, linksAll, linksAll] at hn hn'
    obtain ⟨ho, hnext⟩ := orderly_afterAll hempty hl (by omega)
    rw [afterAll_append]
    exact pairwise_numbers_after rfl ho hf (by omega)
      (fun h => (h.lt hempty hl (by omega)).2) (ih hl (by omega))

/-- **A container lists its members in the order of their edges exactly if no edge has overtaken
another there**, in every cabinet that a run from an empty one comes to.  It lists all its members,
the deferred ones included.  Of two of them that one comes first which is the older and was not
overtaken by the other, or which is the younger and has overtaken the other: it was listed at once
while the older one was deferred. -/
theorem listings_ascend_iff (hl : AllAllowed Fresh l (.empty settings epoch))
    (hn : linksAll l (.empty settings epoch) < 2 ^ 64 - 1)
    (hc : afterAll l (.empty settings epoch) = c) (p : ItemId) :
    (∀ edge, edge ∈ c.childEdges p ↔ c.edge? edge.id = some edge ∧ edge.container = p) ∧
    ((c.childEdges p).Pairwise fun edge edge' =>
      Precedes l (.empty settings epoch) edge.id edge'.id) ∧
    (((c.childEdges p).Pairwise fun edge edge' => edge.id.toNat < edge'.id.toNat) ↔
      ∀ edge ∈ c.childEdges p, ∀ edge' ∈ c.childEdges p,
        ¬Overtakes l (.empty settings epoch) edge'.id edge.id) ∧
    ((c.children p).Pairwise (c.EnteredBefore p) ↔
      ∀ edge ∈ c.childEdges p, ∀ edge' ∈ c.childEdges p,
        ¬Overtakes l (.empty settings epoch) edge'.id edge.id) := by
  have hempty := orderly_empty settings epoch
  have ho : c.Orderly := hc ▸ (orderly_afterAll hempty hl (linksAll_lt hn)).1
  have hturn : (c.childEdges p).Pairwise fun edge edge' =>
      Precedes l (.empty settings epoch) edge.id edge'.id :=
    List.pairwise_map.mp (hc ▸ pairwise_numbers_afterAll hl hn p)
  have hlt : ∀ {late early}, Overtakes l (.empty settings epoch) late early →
      early.toNat < late.toNat := fun h => (h.lt hempty hl (linksAll_lt hn)).1
  have hiff : ((c.childEdges p).Pairwise fun edge edge' => edge.id.toNat < edge'.id.toNat) ↔
      ∀ edge ∈ c.childEdges p, ∀ edge' ∈ c.childEdges p,
        ¬Overtakes l (.empty settings epoch) edge'.id edge.id := by
    constructor
    · intro hasc edge hm edge' hm'
      have hboth := hasc.and hturn
      have hpassed : (c.childEdges p).Pairwise fun edge edge' =>
          ¬Overtakes l (.empty settings epoch) edge'.id edge.id :=
        hboth.imp fun ⟨hless, h⟩ => (h.resolve_right fun h => absurd h.1 hless.not_gt).2
      have hpasses : (c.childEdges p).Pairwise fun edge edge' =>
          ¬Overtakes l (.empty settings epoch) edge.id edge'.id :=
        hboth.imp fun ⟨hless, _⟩ h => absurd (hlt h) hless.not_gt
      exact hpassed.forall_of_forall_of_flip (fun _ _ h => Nat.lt_irrefl _ (hlt h)) hpasses hm hm'
    · intro hnone
      refine hturn.imp_of_mem fun hm hm' h => ?_
      exact (h.resolve_right fun h => hnone _ hm' _ hm h.2).1
  refine ⟨fun edge => ?_, hturn, hiff, ho.pairwise_children_iff.trans hiff⟩
  rw [ho.mem_childEdges_iff]
  constructor
  · rintro ⟨e, he, hp⟩
    exact ⟨ho.edge_id he ▸ he, hp⟩
  · rintro ⟨he, hp⟩
    exact ⟨_, he, hp⟩

/-- A document is put into a folder, to be listed later, and then another one; then what waits is
listed. -/
def lateFirst : List Request :=
  [.insert (.bare 1 (.container .folder) []), .insert (.bare 2 .document []),
    .insert (.bare 3 .document []),
    .add (.ofNat 1) (.ofNat 2) { Addition.bare .null with defer := true },
    .add (.ofNat 1) (.ofNat 3) (.bare .null), .flush].map operation

/-- The second document has overtaken the first one, and the folder lists it before it. -/
theorem listings_ascend_iff_lateFirst : ∃ c, afterAll lateFirst (.empty .standard 0) = c ∧
    (c.childEdges (.ofNat 1)).map (·.id) = [⟨2⟩, ⟨1⟩] ∧
    c.children (.ofNat 1) = [.ofNat 3, .ofNat 2] ∧
    Overtakes lateFirst (.empty .standard 0) ⟨2⟩ ⟨1⟩ ∧
    ¬((c.childEdges (.ofNat 1)).Pairwise fun edge edge' => edge.id.toNat < edge'.id.toNat) ∧
    ¬(c.children (.ofNat 1)).Pairwise (c.EnteredBefore (.ofNat 1)) := by
  have hl : AllAllowed Fresh lateFirst (.empty .standard 0) :=
    ⟨rfl, rfl, rfl, trivial, trivial, trivial, trivial⟩
  have hn : linksAll lateFirst (.empty .standard 0) ≤ 6 := linksAll_le_length ..
  obtain ⟨_, hturn, hiff, hiff'⟩ := listings_ascend_iff hl (by omega) rfl (.ofNat 1)
  have hedges : (afterAll lateFirst (.empty .standard 0)).childEdges (.ofNat 1) =
      [.make ⟨2⟩ ⟨.ofNat 3, .ofNat 1⟩ .anonymous .start,
        .make ⟨1⟩ ⟨.ofNat 2, .ofNat 1⟩ .anonymous .start] := by cbv
  have hchildren : (afterAll lateFirst (.empty .standard 0)).children (.ofNat 1) =
      [.ofNat 3, .ofNat 2] := by cbv
  rw [hedges] at hturn hiff hiff'
  have hover : Overtakes lateFirst (.empty .standard 0) ⟨2⟩ ⟨1⟩ := by
    have hfirst : Precedes lateFirst (.empty .standard 0) ⟨2⟩ ⟨1⟩ :=
      (List.pairwise_cons.mp hturn).1 _ List.mem_cons_self
    exact (hfirst.resolve_left fun h => absurd h.1 (by decide)).2
  refine ⟨_, rfl, by rw [hedges]; rfl, hchildren, hover, fun h => ?_, fun h => ?_⟩
  · rw [hedges] at h
    exact hiff.mp h _ (List.mem_cons_of_mem _ List.mem_cons_self) _ List.mem_cons_self hover
  · exact hiff'.mp h _ (List.mem_cons_of_mem _ List.mem_cons_self) _ List.mem_cons_self hover

end Run

end Request

end Filing
