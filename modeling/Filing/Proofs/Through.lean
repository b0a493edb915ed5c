import Filing.Proofs.Path
import Filing.Proofs.Requests
import Filing.Proofs.Viewer
import Mathlib.Data.List.Chain

/-!
# Breadcrumbs through an item

The breadcrumb from a root to an item through a third one is joined of two that are found apart: the
one from the root down to the third item, and the one from there down to the first.

* `ItemPath.merge_of_meet`: **what the join of two such paths is** if they meet in one place.  It is
  both, one after the other, unless the upper one is no more than that place and the lower one goes
  on: the two then tie in depth, the lower part that is smaller wins, and this is the empty one.
* `Chain.apart`: in a cabinet without cycles **they meet in one place**.
* `Request.resolveVia_joined_iff`: so after every run a resolver, new or in use, **joins the two
  shortest paths exactly if the third item is not the root, or is the item**.  From a root through
  itself it tells the root alone, whatever is below.
-/

namespace Filing

open Cabinet Relation

/-! ## Paths that meet -/

namespace ItemPath

variable {above below : List ItemId} {via : ItemId}

/-- The part that ends deeper is the upper one, and an empty part is smaller than all others. -/
theorem isUpper_meet (above below : List ItemId) :
    isUpper above [] [] below = !(above.isEmpty && !below.isEmpty) := by
  cases above with
  | cons => rfl
  | nil => cases below <;> rfl

/-- **The join of two paths that meet in one place.** -/
theorem merge_of_meet (h : ∀ x ∈ above, x ∉ via :: below) :
    merge ⟨above ++ [via]⟩ ⟨via :: below⟩ =
      if above = [] ∧ below ≠ [] then ⟨[via]⟩ else ⟨above ++ [via] ++ below⟩ := by
  have hmerge : merge ⟨above ++ [via]⟩ ⟨[] ++ via :: below⟩ = _ :=
    merge_append h List.not_mem_nil
  rw [isUpper_meet, List.nil_append, List.nil_append] at hmerge
  rw [hmerge]
  cases above with
  | cons => simp
  | nil => cases below <;> simp

end ItemPath

/-! ## Chains -/

namespace Cabinet

variable {c : Cabinet} {top via bottom item root x : ItemId} {l above below : List ItemId}
  {p upper lower : ItemPath}

/-- The items are a chain of memberships from `top` down to `bottom`. -/
structure Chain (c : Cabinet) (top bottom : ItemId) (l : List ItemId) : Prop where
  head : l.head? = some top
  last : l.getLast? = some bottom
  holds : l.IsChain c.Holds

/-- The path is a chain, and no chain between its ends is shorter. -/
structure ShortestChain (c : Cabinet) (top bottom : ItemId) (p : ItemPath) : Prop extends
    Chain c top bottom p.nodes where
  shortest : ∀ l, c.Chain top bottom l → p.length ≤ l.length

namespace Chain

theorem singleton (c : Cabinet) (id : ItemId) : c.Chain id id [id] := ⟨rfl, rfl, .singleton _⟩

theorem eq_cons (h : c.Chain top bottom l) : ∃ below, l = top :: below :=
  List.head?_eq_some_iff.mp h.head

theorem eq_append (h : c.Chain top bottom l) : ∃ above, l = above ++ [bottom] :=
  List.getLast?_eq_some_iff.mp h.last

theorem up (h : c.Chain x bottom l) (hholds : c.Holds top x) : c.Chain top bottom (top :: l) := by
  obtain ⟨below, rfl⟩ := h.eq_cons
  exact ⟨rfl, List.getLast?_cons_cons.trans h.last, .cons_cons hholds h.holds⟩

theorem append (h : c.Chain top via (above ++ [via])) (h' : c.Chain via bottom (via :: below)) :
    c.Chain top bottom (above ++ via :: below) where
  head := by
    rw [← h.head]
    cases above <;> rfl
  last := by
    rw [← h'.last]
    exact List.getLast?_append_of_ne_nil _ (List.cons_ne_nil _ _)
  holds := List.isChain_split.mpr ⟨h.holds, h'.holds⟩

theorem pairwise (h : c.Chain top bottom l) : l.Pairwise (TransGen c.Holds) :=
  (h.holds.imp fun _ _ => .single).pairwise

theorem before (h : c.Chain top via (above ++ [via])) (hx : x ∈ above) : TransGen c.Holds x via :=
  (List.pairwise_append.mp h.pairwise).2.2 x hx via List.mem_cons_self

theorem after (h : c.Chain via bottom (via :: below)) (hx : x ∈ below) : TransGen c.Holds via x :=
  (List.pairwise_cons.mp h.pairwise).1 x hx

end Chain

/-- **Two chains that one item joins have nothing else in common.** -/
theorem Chain.apart (ha : c.Acyclic) (h : c.Chain top via (above ++ [via]))
    (h' : c.Chain via bottom (via :: below)) : ∀ x ∈ above, x ∉ via :: below := by
  intro x hx hm
  have hup := h.before hx
  rcases List.mem_cons.mp hm with rfl | hm
  · exact ha x hup
  · exact ha x (hup.trans (h'.after hm))

namespace ShortestChain

theorem eq_singleton (h : c.ShortestChain item item p) : p = ⟨[item]⟩ := by
  obtain ⟨below, hp⟩ := h.eq_cons
  have hle : p.nodes.length ≤ 1 := h.shortest _ (.singleton c item)
  rw [hp, List.length_cons] at hle
  obtain rfl : below = [] := List.length_eq_zero_iff.mp (by omega)
  cases p
  exact congrArg ItemPath.mk hp

/-- **What two shortest chains are joined to**, one down to an item and one on from it. -/
theorem merge (ha : c.Acyclic) (hupper : c.ShortestChain root via upper)
    (hlower : c.ShortestChain via item lower) :
    upper.merge lower =
      if via = root ∧ via ≠ item then ⟨[root]⟩ else ⟨upper.nodes ++ lower.nodes.tail⟩ := by
  obtain ⟨above, hu⟩ := hupper.eq_append
  obtain ⟨below, hl⟩ := hlower.eq_cons
  obtain ⟨_⟩ := upper
  obtain ⟨_⟩ := lower
  dsimp only at hu hl
  subst hu hl
  have habove : above = [] ↔ via = root := by
    constructor
    · rintro rfl
      exact Option.some.inj hupper.head
    · rintro rfl
      simpa using hupper.eq_singleton
  have hbelow : below = [] ↔ via = item := by
    constructor
    · rintro rfl
      exact Option.some.inj hlower.last
    · rintro rfl
      simpa using hlower.eq_singleton
  rw [ItemPath.merge_of_meet (Chain.apart ha hupper.toChain hlower.toChain), List.tail_cons]
  simp only [habove, ne_eq, hbelow]
  split
  · next h => rw [h.1]
  · rfl

theorem chain_append (hupper : c.ShortestChain root via upper)
    (hlower : c.ShortestChain via item lower) :
    c.Chain root item (upper.nodes ++ lower.nodes.tail) := by
  obtain ⟨above, hu⟩ := hupper.eq_append
  obtain ⟨below, hl⟩ := hlower.eq_cons
  have hchain := (hu ▸ hupper.toChain).append (hl ▸ hlower.toChain)
  rwa [List.append_cons, ← hu, show below = lower.nodes.tail by rw [hl, List.tail_cons]] at hchain

/-- **What two shortest chains are joined to is both**, exactly if the item that joins them is not
the top or is the bottom. -/
theorem merge_eq_append_iff (ha : c.Acyclic) (hupper : c.ShortestChain root via upper)
    (hlower : c.ShortestChain via item lower) :
    upper.merge lower = ⟨upper.nodes ++ lower.nodes.tail⟩ ↔ via ≠ root ∨ via = item := by
  rw [hupper.merge ha hlower]
  constructor
  · intro heq
    by_contra hcase
    rw [not_or, not_not] at hcase
    -- the top alone does not end at the bottom
    have hlast := (hupper.chain_append hlower).last
    rw [if_pos hcase] at heq
    have hnodes : [root] = upper.nodes ++ lower.nodes.tail := congrArg ItemPath.nodes heq
    rw [← hnodes] at hlast
    exact hcase.2 (hcase.1.trans (Option.some.inj hlast))
  · rintro (hroot | hitem)
    · exact if_neg fun h => hroot h.1
    · exact if_neg fun h => h.2 hitem

theorem merge_of_top (ha : c.Acyclic) (hupper : c.ShortestChain root root upper)
    (hlower : c.ShortestChain root item lower) : upper.merge lower = ⟨[root]⟩ := by
  rw [hupper.merge ha hlower]
  split
  · rfl
  · next h =>
    -- both chains are the item alone
    obtain rfl : root = item := not_not.mp fun hitem => h ⟨rfl, hitem⟩
    rw [hupper.eq_singleton, hlower.eq_singleton]
    rfl

end ShortestChain

/-! ## The answer -/

/-- **The ways of a search without boundaries are the chains.** -/
theorem Coherent.way_iff_chain (h : c.Coherent) {q : Quest}
    (hb : ∀ edge, q.isBoundary edge = false) :
    c.Way q bottom x l ↔ c.Chain x bottom l := by
  constructor
  · intro hw
    induction hw with
    | start => exact .singleton c bottom
    | up _ hup ih => exact ih.up ((h.climbs_iff hb).mp hup)
  · intro hc
    induction l generalizing x with
    | nil => cases hc.head
    | cons y l ih =>
      obtain rfl : y = x := Option.some.inj hc.head
      cases l with
      | nil =>
        obtain rfl : y = bottom := Option.some.inj hc.last
        exact .start
      | cons z l =>
        obtain ⟨hholds, htail⟩ := List.isChain_cons_cons.mp hc.holds
        have hlast := List.getLast?_cons_cons.symm.trans hc.last
        exact (ih ⟨rfl, hlast, htail⟩).up ((h.climbs_iff hb).mpr hholds)

theorem Sound.shortestChain_of_answer (h : c.Sound) (hp : c.answer ⟨item, root, none⟩ = .ok p)
    (hne : p.isEmpty = false) : c.ShortestChain root item p := by
  rw [answer] at hp
  split at hp
  · next hs =>
    obtain ⟨i, hi⟩ := SortedMap.contains_eq_true_iff.mp hs
    obtain ⟨p', hp', hr⟩ := h.toCoherent.shortestPath?_tells
      (q := c.trailQuest ⟨item, root, none⟩) h.acyclic ⟨i, hi⟩
    rw [breadcrumb_eq, hp'] at hp
    cases hp
    have hway : ∀ {x l}, c.Way (c.trailQuest ⟨item, root, none⟩) item x l ↔ c.Chain x item l :=
      h.toCoherent.way_iff_chain fun _ => rfl
    obtain ⟨x, j, hw, hj, ht⟩ := hr.way hne
    obtain rfl : x = root := (h.item_id hj).symm.trans (of_decide_eq_true ht)
    exact ⟨hway.mp hw, fun l hl => hr.nearest hne (hway.mpr hl) hj ht⟩
  · cases hp

theorem answerVia_eq_merge (hlower : c.answer ⟨item, via, none⟩ = .ok lower)
    (hupper : c.answer ⟨via, root, none⟩ = .ok upper) (hl : lower.isEmpty = false)
    (hu : upper.isEmpty = false) : c.answerVia item via root = .ok (upper.merge lower) := by
  rw [answerVia, hlower, hupper]
  show Except.ok (if lower.isEmpty || upper.isEmpty then _ else _) = _
  rw [hl, hu]
  rfl

end Cabinet

/-! ## Runs -/

namespace Request

section Run

variable {settings : Settings} {epoch : Epoch} {c : Cabinet} {l : List Request}
  {item via root : ItemId} {upper lower : ItemPath}

/-- **A resolver joins the two shortest paths**, one after the other, **exactly if the item on the
way is not the root or is the item at the end**, in every cabinet that a run from an empty one comes
to; from the root through the root it tells the root alone.  Joined, they are a chain from the root
through the item on the way to the one at the end. -/
theorem resolveVia_joined_iff (hl : AllAllowed Fresh l (.empty settings epoch))
    (hn : linksAll l (.empty settings epoch) < 2 ^ 64 - 1)
    (hc : afterAll l (.empty settings epoch) = c)
    (hlower : c.answer ⟨item, via, none⟩ = .ok lower)
    (hupper : c.answer ⟨via, root, none⟩ = .ok upper)
    (hne : lower.isEmpty = false) (hne' : upper.isEmpty = false) :
    (c.ShortestChain root via upper ∧ c.ShortestChain via item lower ∧
      c.Chain root item (upper.nodes ++ lower.nodes.tail)) ∧
    ∃ p, (∀ lifetime extra clock,
        ((Resolver.new lifetime extra).resolveVia c item via root clock).1 = .ok p) ∧
      (∀ lifetime extra o place m, ReflTransGen Office.Step (.opened lifetime extra) o →
        o.desk place = some ⟨c, m⟩ → m < 2 ^ 64 →
          ∀ clock, (o.resolver.resolveVia c item via root clock).1 = .ok p) ∧
      (p = ⟨upper.nodes ++ lower.nodes.tail⟩ ↔ via ≠ root ∨ via = item) ∧
      (via = root → p = ⟨[root]⟩) := by
  subst hc
  have hs := sound_afterAll hl hn
  have hup := hs.shortestChain_of_answer hupper hne'
  have hdown := hs.shortestChain_of_answer hlower hne
  have hanswer := answerVia_eq_merge hlower hupper hne hne'
  refine ⟨⟨hup, hdown, hup.chain_append hdown⟩, upper.merge lower, fun lifetime extra clock => ?_,
    fun lifetime extra o place m hrun hd hm clock => ?_,
    hup.merge_eq_append_iff hs.acyclic hdown, ?_⟩
  · rw [(Resolver.honest_new lifetime extra _).resolveVia_fst, hanswer]
  · rw [((Office.Truthful.of_steps hrun).honest hd hm).resolveVia_fst, hanswer]
  · rintro rfl
    exact hup.merge_of_top hs.acyclic hdown

/-- A folder in a folder, with a document. -/
def nesting : List Request :=
  [.insert (.bare 1 (.container .folder) []), .insert (.bare 2 (.container .folder) []),
    .insert (.bare 3 .document []), .add (.ofNat 1) (.ofNat 2) (.bare .null),
    .add (.ofNat 2) (.ofNat 3) (.bare .null)].map operation

/-- The document is found through the inner folder, and not through the outer one, from which there
is a way down to it. -/
theorem resolveVia_joined_iff_nesting : ∃ c, afterAll nesting (.empty .standard 0) = c ∧
    ((Resolver.new 60).resolveVia c (.ofNat 3) (.ofNat 2) (.ofNat 1) 0).1 =
      .ok ⟨[.ofNat 1, .ofNat 2, .ofNat 3]⟩ ∧
    c.Chain (.ofNat 1) (.ofNat 3) [.ofNat 1, .ofNat 2, .ofNat 3] ∧
    ((Resolver.new 60).resolveVia c (.ofNat 3) (.ofNat 1) (.ofNat 1) 0).1 = .ok ⟨[.ofNat 1]⟩ := by
  have hl : AllAllowed Fresh nesting (.empty .standard 0) :=
    ⟨rfl, rfl, rfl, trivial, trivial, trivial⟩
  have hn : linksAll nesting (.empty .standard 0) ≤ 5 := linksAll_le_length ..
  have hdocument : (afterAll nesting (.empty .standard 0)).answer ⟨.ofNat 3, .ofNat 2, none⟩ =
      .ok ⟨[.ofNat 2, .ofNat 3]⟩ := by cbv
  have hinner : (afterAll nesting (.empty .standard 0)).answer ⟨.ofNat 2, .ofNat 1, none⟩ =
      .ok ⟨[.ofNat 1, .ofNat 2]⟩ := by cbv
  have hlong : (afterAll nesting (.empty .standard 0)).answer ⟨.ofNat 3, .ofNat 1, none⟩ =
      .ok ⟨[.ofNat 1, .ofNat 2, .ofNat 3]⟩ := by cbv
  have houter : (afterAll nesting (.empty .standard 0)).answer ⟨.ofNat 1, .ofNat 1, none⟩ =
      .ok ⟨[.ofNat 1]⟩ := by cbv
  obtain ⟨⟨_, _, hchain⟩, p, hp, _, hjoined, _⟩ :=
    resolveVia_joined_iff hl (by omega) rfl hdocument hinner rfl rfl
  obtain ⟨_, p', hp', _, _, hroot⟩ :=
    resolveVia_joined_iff hl (by omega) rfl hlong houter rfl rfl
  refine ⟨_, rfl, ?_, hchain, ?_⟩
  · rw [hp 60 0 0, hjoined.mpr (.inl (by decide))]
    rfl
  · rw [hp' 60 0 0, hroot rfl]

end Run

end Request

end Filing
