import Filing.Proofs.Document.Numbering
import Filing.Proofs.Requests

/-!
# What is told of a membership

Whether an item is in a container can be asked of the index, of the stored edges, of the list of the
item and of the list of the container.  In every run the four answers agree (`Joined`, `Apart`).

Numbers of edges only go up: the ones that additions report are in order (`pairwise_reportedAll`),
and a number whose edge is gone is never used again (`Spent`, `Change.spent`).  The list of an item
grows at its end, so **the containers of an item come in the order of the edges** (`Ascending`,
`Change.ascending`).

`memberships_agree` puts these together.
-/

namespace Filing

open Cabinet

namespace Cabinet

variable {c c' : Cabinet} {item container : ItemId}

/-! ## Four answers -/

/-- Every way of asking says that the container holds the item. -/
structure Joined (c : Cabinet) (item container : ItemId) : Prop where
  indexed : c.isMember ⟨item, container⟩ = true
  stored : ∃ edge, c.edgeBetween? ⟨item, container⟩ = some edge ∧ edge.item = item ∧
    edge.container = container ∧ c.edge? edge.id = some edge
  above : (c.parents item).count container = 1
  below : (c.children container).count item = 1

/-- No way of asking says that the container holds the item. -/
structure Apart (c : Cabinet) (item container : ItemId) : Prop where
  indexed : c.isMember ⟨item, container⟩ = false
  stored : c.edgeBetween? ⟨item, container⟩ = none
  above : container ∉ c.parents item
  below : item ∉ c.children container

theorem Indexed.edgeBetween?_key (h : c.Indexed) {e : EdgeId} {edge : Edge}
    (he : c.edge? e = some edge) : c.edgeBetween? edge.key = some edge := by
  rw [edgeBetween?, h.index_iff.mpr ⟨edge, he, rfl⟩, Option.bind_some, he]

theorem Sound.joined_or_apart (h : c.Sound) (item container : ItemId) :
    c.Joined item container ∨ c.Apart item container := by
  have hindex : c.isMember ⟨item, container⟩ = true ↔ c.Holds container item := h.isMember_iff
  by_cases hh : c.Holds container item
  · refine .inl ⟨hindex.mpr hh, ?_,
      List.count_eq_one_of_mem (h.parents_nodup item) (h.mem_parents_iff.mpr hh),
      List.count_eq_one_of_mem (h.children_nodup container) (h.mem_children_iff.mpr hh)⟩
    obtain ⟨e, edge, he, rfl, rfl⟩ := hh
    exact ⟨edge, h.edgeBetween?_key he, rfl, rfl, by rw [h.edge_id he, he]⟩
  · have hnone : c.isMember ⟨item, container⟩ = false :=
      Bool.eq_false_iff.mpr fun hm => hh (hindex.mp hm)
    refine .inr ⟨hnone, ?_, fun hm => hh (h.mem_parents_iff.mp hm),
      fun hm => hh (h.mem_children_iff.mp hm)⟩
    rw [edgeBetween?, SortedMap.contains_eq_false_iff.mp hnone, Option.bind_none]

/-! ## Numbers that were used -/

/-- The number was used, and its edge is gone. -/
def Spent (c : Cabinet) (e : EdgeId) : Prop := c.edge? e = none ∧ e.toNat < c.nextEdge.toNat

/-- **A number that was spent stays so**: only the next number is ever taken. -/
theorem Change.spent {k : Nat} (h : Change k c c') (hk : c.nextEdge.toNat + k < 2 ^ 64) {e : EdgeId}
    (hs : c.Spent e) : c'.Spent e := by
  obtain ⟨hnone, hlt⟩ := hs
  cases h with
  | retouch h => exact ⟨(h.edge? e).trans hnone, h.nextEdge ▸ hlt⟩
  | link owner defer now =>
    have hne : e ≠ c.nextEdge := by
      rintro rfl
      exact Nat.lt_irrefl _ hlt
    refine ⟨by rw [edge?_withEdge, if_neg hne, hnone], ?_⟩
    show e.toNat < c.nextEdge.next.toNat
    rw [EdgeId.toNat_next hk]
    omega
  | unlink h =>
    obtain ⟨e', hu⟩ := unlinked_of_unlink? h
    refine ⟨?_, hu.nextEdge ▸ hlt⟩
    rw [hu.edge?, hnone, ite_self]
  | flush => exact ⟨by rw [edge?_flushDeferred, hnone], by rwa [flushDeferred_eq]⟩
  | mark => exact ⟨by rw [edge?_markEdge, hnone, Option.map_none, ite_self], hlt⟩
  | insert => exact ⟨hnone, hlt⟩
  | erase => exact ⟨hnone, hlt⟩

/-! ## Lists in order -/

/-- Every item lists its edges in the order in which they were made. -/
def Ascending (c : Cabinet) : Prop :=
  ∀ id i, c.item? id = some i → i.parentEdges.Pairwise fun e e' => e.toNat < e'.toNat

/-- **The lists stay in order**: an edge is entered at the end, with a number above all others. -/
theorem Change.ascending {k : Nat} (h : Change k c c') (ha : c.Accounted) (hc : c.Ascending) :
    c'.Ascending := by
  intro id i' hi'
  cases h with
  | retouch h =>
    obtain ⟨i, hi, ho⟩ := h.item_before hi'
    exact Item.parentEdges_eq_of_outline ho ▸ hc id i hi
  | link owner defer now =>
    rw [item?_withEdge] at hi'
    obtain ⟨i, hi, rfl⟩ := Option.map_eq_some_iff.mp hi'
    dsimp only
    split
    -- the new number is above all that are in use
    · refine List.pairwise_append.mpr ⟨hc id i hi, List.pairwise_singleton _ _, ?_⟩
      intro e he e' he'
      obtain ⟨edge, hs, _⟩ := ha.parent_stored hi he
      rw [List.mem_singleton.mp he']
      exact ha.number_lt hs
    · exact hc id i hi
  | unlink h =>
    obtain ⟨e, hu⟩ := unlinked_of_unlink? h
    obtain ⟨i, hi, rfl⟩ := hu.item_before hi'
    dsimp only
    split
    · exact (hc id i hi).sublist List.erase_sublist
    · exact hc id i hi
  | flush =>
    obtain ⟨i, hi, rfl⟩ := item_before_flush hi'
    exact hc id i hi
  | mark => exact hc id i' hi'
  | insert =>
    rw [item?_insertItem] at hi'
    split at hi'
    · cases hi'
      exact List.Pairwise.nil
    · exact hc id i' hi'
  | erase => exact hc id i' (item_before_erase hi')

/-- The container was joined before the other. -/
def JoinedBefore (c : Cabinet) (item p q : ItemId) : Prop :=
  ∃ edge edge', c.edgeBetween? ⟨item, p⟩ = some edge ∧ c.edgeBetween? ⟨item, q⟩ = some edge' ∧
    edge.id.toNat < edge'.id.toNat

/-- **The containers of an item come in the order of its edges.** -/
theorem Sound.pairwise_parents (h : c.Sound) (hc : c.Ascending) (item : ItemId) :
    (c.parents item).Pairwise (c.JoinedBefore item) := by
  rw [parents, parentEdges]
  cases hi : c.item? item with
  | none => exact List.Pairwise.nil
  | some i =>
    refine List.pairwise_map.mpr (List.pairwise_filterMap.mpr ?_)
    refine (hc item i hi).imp_of_mem fun {e e'} hm hm' hlt edge he edge' he' => ?_
    -- either edge is what the index names for its ends, and bears its own number
    have hbetween : ∀ {e edge}, e ∈ i.parentEdges → c.edge? e = some edge →
        c.edgeBetween? ⟨item, edge.container⟩ = some edge := by
      intro e edge hm he
      obtain ⟨_, hs, rfl⟩ := h.parent_stored hi hm
      cases he.symm.trans hs
      exact h.edgeBetween?_key he
    exact ⟨edge, edge', hbetween hm he, hbetween hm' he', by rwa [h.edge_id he, h.edge_id he']⟩

end Cabinet

/-! ## Requests -/

namespace Cabinet.Changes

variable {c c' : Cabinet} {n : Nat}

theorem spent (h : Changes n c c') (ha : c.Accounted) (hn : c.nextEdge.toNat + n < 2 ^ 64)
    {e : EdgeId} (hs : c.Spent e) : c'.Spent e := by
  induction h with
  | refl => exact hs
  | tail hc hk ih =>
    obtain ⟨_, hnext⟩ := hc.accounted ha (by omega)
    exact hk.spent (by omega) (ih ha (by omega) hs)

theorem ascending (h : Changes n c c') (ha : c.Accounted) (hn : c.nextEdge.toNat + n < 2 ^ 64)
    (hc : c.Ascending) : c'.Ascending := by
  induction h with
  | refl => exact hc
  | tail hs hk ih => exact hk.ascending (hs.accounted ha (by omega)).1 (ih ha (by omega) hc)

end Cabinet.Changes

namespace Request

variable {c : Cabinet} {r : Request}

theorem spent_after (h : c.Orderly) (hf : r.Fresh c) (hn : c.nextEdge.toNat + r.links c < 2 ^ 64)
    {e : EdgeId} (hs : c.Spent e) : (r.after c).Spent e := by
  rcases changes_links h.toListed hf with ⟨settings, rfl⟩ | hc
  · exact hs
  · exact hc.spent h.toAccounted hn hs

theorem ascending_after (h : c.Orderly) (hf : r.Fresh c)
    (hn : c.nextEdge.toNat + r.links c < 2 ^ 64) (ha : c.Ascending) : (r.after c).Ascending := by
  rcases changes_links h.toListed hf with ⟨settings, rfl⟩ | hc
  · exact ha
  · exact hc.ascending h.toAccounted hn ha

/-! ## Numbers that are reported -/

/-- The number of the edge that a request says it has made. -/
def reports (r : Request) (c : Cabinet) : List EdgeId :=
  match r.answer c with
  | .ok (.placed (.added e)) => [e]
  | _ => []

/-- The numbers of the edges that a list of requests says it has made. -/
def reportedAll : List Request → Cabinet → List EdgeId
  | [], _ => []
  | r :: rest, c => r.reports c ++ reportedAll rest (r.after c)

theorem add_of_answer {a : Added} (h : r.answer c = .ok (.placed a)) :
    ∃ parent child ad, r = operation (.add parent child ad) ∧
      ((add parent child ad).on c).1 = .ok a := by
  have hmap : ∀ {α : Type} {e : Edit α} {f : α → Answer},
      ((e >>= fun x => pure (f x) : Edit Answer).on c).1 = .ok (.placed a) →
        ∃ x, (e.on c).1 = .ok x ∧ f x = .placed a := by
    intro α e f he
    rw [Edit.on_bind_pure] at he
    rcases hx : (e.on c).1 with x | x <;> rw [hx] at he
    · cases he
    · exact ⟨x, rfl, Except.ok.inj he⟩
  cases r with
  | configure settings => cases h
  | onAdd p parent child =>
    obtain ⟨x, _, hx⟩ := hmap (e := p.onAdd parent child) h
    cases hx
  | onRemove p parent child =>
    obtain ⟨x, _, hx⟩ := hmap (e := p.onRemove parent child) h
    cases hx
  | operation op =>
    cases op with
    | insert item => cases h
    | add parent child ad =>
      obtain ⟨x, hx, hxa⟩ := hmap (e := add parent child ad) h
      cases hxa
      exact ⟨parent, child, ad, rfl, hx⟩
    | remove parent child p =>
      obtain ⟨x, _, hx⟩ := hmap (e := remove parent child p) h
      cases hx
    | move item origin target acting unrestricted now =>
      obtain ⟨x, _, hx⟩ := hmap (e := move item origin target acting unrestricted now) h
      cases hx
    | mark key deleted now =>
      change ((Operation.mark key deleted now).perform.on c).1 = _ at h
      rw [Operation.perform, Edit.on_get_bind, Edit.on_liftM_bind] at h
      rcases hm : c.markDeletedIn key deleted now with x | ⟨b, c'⟩ <;> rw [hm] at h <;> cases h
    | setDeleted id deleted =>
      change ((Operation.setDeleted id deleted).perform.on c).1 = _ at h
      rw [Operation.on_setDeleted] at h
      rcases hi : c.item id with x | i <;> rw [hi] at h <;> cases h
    | setAccess id access =>
      change ((Operation.setAccess id access).perform.on c).1 = _ at h
      rw [Operation.on_setAccess] at h
      rcases hi : c.item id with x | i <;> rw [hi] at h <;> cases h
    | destroy id =>
      obtain ⟨x, _, hx⟩ := hmap (e := destroy id) h
      cases hx
    | flush => cases h

/-- **What is reported is the next number**, and another one is next then. -/
theorem mem_reports {e : EdgeId} (h : e ∈ r.reports c) : e = c.nextEdge ∧ r.links c = 1 := by
  unfold reports at h
  split at h
  · next e' ha =>
    obtain rfl : e = e' := List.mem_singleton.mp h
    obtain ⟨parent, child, ad, rfl, hadd⟩ := add_of_answer ha
    obtain ⟨he, hr⟩ := retouched_of_added (Prod.ext hadd rfl)
    refine ⟨he, ?_⟩
    rw [links, Operation.links, Operation.after_add, if_neg]
    rw [hr.nextEdge]
    exact EdgeId.next_ne c.nextEdge
  · cases h

/-- **The numbers that are reported go up**, from the next number on. -/
theorem pairwise_reportedAll {l : List Request} (h : c.Orderly) (hl : AllAllowed Fresh l c)
    (hn : c.nextEdge.toNat + linksAll l c < 2 ^ 64) :
    (reportedAll l c).Pairwise (fun e e' => e.toNat < e'.toNat) ∧
      ∀ e ∈ reportedAll l c, c.nextEdge.toNat ≤ e.toNat := by
  induction l generalizing c with
  | nil => exact ⟨List.Pairwise.nil, nofun⟩
  | cons r rest ih =>
    rw [linksAll] at hn
    obtain ⟨ho, hnext⟩ := orderly_after h hl.1 (by omega)
    obtain ⟨hpair, hge⟩ := ih ho hl.2 (by omega)
    have hfirst : (r.reports c).Pairwise fun e e' => e.toNat < e'.toNat := by
      unfold reports
      split
      · exact List.pairwise_singleton _ _
      · exact List.Pairwise.nil
    refine ⟨List.pairwise_append.mpr ⟨hfirst, hpair, fun e he e' he' => ?_⟩, fun e he => ?_⟩
    · obtain ⟨rfl, hlinks⟩ := mem_reports he
      have := hge e' he'
      omega
    · rcases List.mem_append.mp he with he | he
      · obtain ⟨rfl, _⟩ := mem_reports he
        exact Nat.le_refl _
      · have := hge e he
        omega

/-- **A number that is spent when a run starts is neither in use after it nor reported by it.** -/
theorem spent_afterAll {l : List Request} (h : c.Orderly) (hl : AllAllowed Fresh l c)
    (hn : c.nextEdge.toNat + linksAll l c < 2 ^ 64) {e : EdgeId} (hs : c.Spent e) :
    (afterAll l c).edge? e = none ∧ e ∉ reportedAll l c := by
  obtain ⟨_, hspent, _⟩ := invariant_afterAll (I := (·.Spent e)) id
    (fun ho hf hlt => spent_after ho hf hlt) h hs hl hn
  refine ⟨hspent.1, fun hm => ?_⟩
  have := (pairwise_reportedAll h hl hn).2 e hm
  have := hs.2
  omega

/-! ## Runs -/

section Run

variable {settings : Settings} {epoch : Epoch}

/-- **What is told of memberships in a run from an empty cabinet.**  For every item and every
container, the index, the edge of the two, the containers of the item and the members of the
container give the same answer, and those lists have nothing twice.  The numbers that additions
report go up, a number whose edge is gone is neither in use nor reported ever after, and the
containers of an item come in the order of their numbers. -/
theorem memberships_agree {l : List Request} (hl : AllAllowed Fresh l (.empty settings epoch))
    (hn : linksAll l (.empty settings epoch) < 2 ^ 64 - 1) :
    (∀ item container, (afterAll l (.empty settings epoch)).Joined item container ∨
        (afterAll l (.empty settings epoch)).Apart item container) ∧
      (reportedAll l (.empty settings epoch)).Pairwise (fun e e' => e.toNat < e'.toNat) ∧
      (∀ l₁ l₂ l₃ e edge, l = l₁ ++ l₂ ++ l₃ →
        (afterAll l₁ (.empty settings epoch)).edge? e = some edge →
        (afterAll (l₁ ++ l₂) (.empty settings epoch)).edge? e = none →
        (afterAll l (.empty settings epoch)).edge? e = none ∧
          e ∉ reportedAll l₃ (afterAll (l₁ ++ l₂) (.empty settings epoch))) ∧
      ∀ item, ((afterAll l (.empty settings epoch)).parents item).Pairwise
        ((afterAll l (.empty settings epoch)).JoinedBefore item) := by
  have ho := orderly_empty settings epoch
  have hlast := linksAll_lt hn
  have hascend : (empty settings epoch).Ascending := fun id i hi =>
    absurd hi.symm (Option.some_ne_none _)
  obtain ⟨hafter, hasc, _⟩ := invariant_afterAll id
    (fun h hf hlt => ascending_after h hf hlt) ho hascend hl hlast
  refine ⟨fun item container => hafter.toSound.joined_or_apart item container,
    (pairwise_reportedAll ho hl hlast).1, ?_, hafter.toSound.pairwise_parents hasc⟩
  rintro l₁ l₂ l₃ e edge rfl he hgone
  -- the number is below the next one when its edge is there, and so it is later
  obtain ⟨hl₁₂, hl₃⟩ := allAllowed_append.mp hl
  obtain ⟨hl₁, hl₂⟩ := allAllowed_append.mp hl₁₂
  rw [linksAll_append, linksAll_append] at hlast
  obtain ⟨ho₁, hnext₁⟩ := orderly_afterAll ho hl₁ (by omega)
  obtain ⟨ho₂, hnext₂⟩ := orderly_afterAll ho₁ hl₂ (by omega)
  have hlt := ho₁.number_lt he
  rw [afterAll_append] at hgone hl₃ ⊢
  rw [afterAll_append]
  rw [afterAll_append] at hlast
  exact spent_afterAll ho₂ hl₃ (by omega) ⟨hgone, by omega⟩

/-- A document is put into a folder and taken out again. -/
def filedOnce : List Request :=
  (Operation.filing []).map .operation ++ [.operation (.remove (.ofNat 1) (.ofNat 2) .inherit)]

/-- It is put there once more, by a request that lists the edge later. -/
def filedAgain : List Request :=
  [.operation (.add (.ofNat 1) (.ofNat 2) { Addition.bare .inherit with defer := true })]

/-- It gets a second edge then, and the number of the first one is lost. -/
theorem memberships_agree_filedAgain :
    (afterAll (filedOnce ++ filedAgain) (.empty .standard 0)).Joined (.ofNat 2) (.ofNat 1) ∧
      reportedAll (filedOnce ++ filedAgain) (.empty .standard 0) = [⟨1⟩, ⟨2⟩] ∧
      (afterAll (filedOnce ++ filedAgain) (.empty .standard 0)).edge? ⟨1⟩ = none := by
  have hl : AllAllowed Fresh (filedOnce ++ filedAgain) (.empty .standard 0) :=
    ⟨rfl, rfl, trivial, trivial, trivial, trivial⟩
  have hn : linksAll (filedOnce ++ filedAgain) (.empty .standard 0) ≤ 5 := linksAll_le_length ..
  obtain ⟨hagree, _, hgone, _⟩ := memberships_agree hl (by omega)
  have hmember : (afterAll (filedOnce ++ filedAgain) (.empty .standard 0)).isMember
      ⟨.ofNat 2, .ofNat 1⟩ = true := by cbv
  refine ⟨(hagree _ _).resolve_right fun h => ?_, by cbv, ?_⟩
  · rw [h.indexed] at hmember
    cases hmember
  · have hfirst : (afterAll ((Operation.filing []).map .operation) (.empty .standard 0)).edge? ⟨1⟩ =
        some (.make ⟨1⟩ ⟨.ofNat 2, .ofNat 1⟩ .anonymous .start) := by cbv
    exact (hgone _ _ _ _ _ rfl hfirst (by cbv)).1

end Run

end Request

end Filing
