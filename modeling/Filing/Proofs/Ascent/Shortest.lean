import Filing.Proofs.Ascent.Search

/-!
# What a search finds is nearest

A search climbs breadth first: the items that it has met lie in layers above the start, and it deals
with a layer before it comes to the next.  The height of an item that was met is the number of items
on the way down from it.  The queue is ordered by height and holds two layers at most, and an edge
that was followed leads up by one layer at most (`Layered`).

So when an item of some height is in front of the queue, everything to which there is a way of no
more items was met before (`Layered.met_of_way`), and was not what is looked for.  What is then met
is as near as can be.

* `ascendFrom_nearest`: **a search that finds something has found a nearest one**, and tells a
  shortest way to it.
* `Coherent.shortestPath?_tells`: **in a coherent cabinet without cycles the path that is told is a
  shortest one** of all ways to what is looked for, and it is empty exactly if there is none
  (`Shortest`).
-/

namespace Filing

open Relation Cabinet

/-- The number of items on the way down from a container that was met. -/
def Frontier.height (f : Frontier) (id : ItemId) : Nat := (wayDown id f.reached).length

namespace Cabinet

variable {c : Cabinet} {q : Quest} {start id up x : ItemId} {f g : Frontier} {n : Nat}

/-- A way from a container down to the start of a search, along edges that it may follow. -/
inductive Way (c : Cabinet) (q : Quest) (start : ItemId) : ItemId → List ItemId → Prop
  | start : Way c q start start [start]
  | up {id up : ItemId} {l : List ItemId} : Way c q start id l → c.Climbs q id up →
      Way c q start up (up :: l)

theorem Way.reachable {l : List ItemId} (h : c.Way q start x l) :
    ReflTransGen (c.Climbs q) start x := by
  induction h with
  | start => exact .refl
  | up _ hup ih => exact ih.tail hup

theorem Way.ne_nil {l : List ItemId} (h : c.Way q start x l) : l ≠ [] := by
  cases h <;> exact List.cons_ne_nil _ _

theorem Way.stored {l : List ItemId} (h : c.Way q start x l)
    (hs : ∃ i, c.item? start = some i) : ∃ i, c.item? x = some i := by
  cases h with
  | start => exact hs
  | up _ hup =>
    obtain ⟨_, _, _, _, _, _, _, _, _, hi⟩ := hup
    exact hi

/-! ## Heights -/

theorem wayDown_meet_self (f : Frontier) (id up : ItemId) :
    wayDown up (f.meet id up).reached = up :: wayDown id f.reached := by
  rw [Frontier.meet, wayDown, if_pos rfl]

theorem wayDown_meet_of_ne (f : Frontier) (id : ItemId) (h : x ≠ up) :
    wayDown x (f.meet id up).reached = wayDown x f.reached := by
  rw [Frontier.meet, wayDown, if_neg h.symm]

theorem height_meet_self (f : Frontier) (id up : ItemId) :
    (f.meet id up).height up = f.height id + 1 :=
  congrArg List.length (wayDown_meet_self f id up)

theorem height_meet_of_ne (f : Frontier) (id : ItemId) (h : x ≠ up) :
    (f.meet id up).height x = f.height x :=
  congrArg List.length (wayDown_meet_of_ne f id h)

/-- **The layers of a search** in whose queue nothing is lower than `n`. -/
structure Layered (c : Cabinet) (q : Quest) (start : ItemId) (n : Nat) (f : Frontier) : Prop where
  base : f.height start = 1
  way : ∀ {x}, f.Met start x → c.Way q start x (wayDown x f.reached)
  sorted : f.queue.Pairwise fun x y => f.height x ≤ f.height y
  queued : ∀ {x}, x ∈ f.queue → n ≤ f.height x
  /-- What was met is not above the next layer. -/
  met : ∀ {x}, f.Met start x → f.height x ≤ n + 1
  /-- What has left the queue is not above this one. -/
  left : ∀ {x}, f.Met start x → x ∉ f.queue → f.height x ≤ n
  followed : ∀ {x y}, (x, y) ∈ f.followed →
    f.Met start x ∧ f.Met start y ∧ f.height y ≤ f.height x + 1

namespace Layered

theorem outset : Layered c q start 1 (c.outset start) where
  base := rfl
  way hm := by
    rw [met_outset.mp hm]
    exact .start
  sorted := List.pairwise_singleton _ _
  queued hm := by
    rw [List.mem_singleton.mp hm]
    exact le_rfl
  met hm := by
    rw [met_outset.mp hm]
    exact Nat.le_succ 1
  left hm hn := absurd (List.mem_singleton.mpr (met_outset.mp hm)) hn
  followed hm := absurd hm List.not_mem_nil

theorem front {queue : List ItemId} (h : Layered c q start n f) (hq : f.queue = id :: queue) :
    Layered c q start (f.height id) f where
  base := h.base
  way := h.way
  sorted := h.sorted
  queued hm := by
    have hs := h.sorted
    rw [hq] at hs hm
    rcases List.mem_cons.mp hm with rfl | hm
    · exact le_rfl
    · exact (List.pairwise_cons.mp hs).1 _ hm
  met hm := (h.met hm).trans (Nat.succ_le_succ (h.queued (hq ▸ List.mem_cons_self)))
  left hm hn := (h.left hm hn).trans (h.queued (hq ▸ List.mem_cons_self))
  followed := h.followed

theorem pop {queue : List ItemId} (h : Layered c q start (f.height id) f)
    (hq : f.queue = id :: queue) : Layered c q start (f.height id) { f with queue } where
  base := h.base
  way := h.way
  sorted := (List.pairwise_cons.mp (hq ▸ h.sorted)).2
  queued hm := h.queued (hq ▸ List.mem_cons_of_mem _ hm)
  met := h.met
  left {x} hm hn := by
    by_cases hx : x = id
    · rw [hx]
      exact le_rfl
    · refine h.left hm fun hin => ?_
      rw [hq] at hin
      exact hn ((List.mem_cons.mp hin).resolve_left hx)
  followed := h.followed

theorem follow (h : Layered c q start n f) (hid : f.Met start id) (hn : f.height id = n)
    (hup : f.Met start up) : Layered c q start n (f.follow id up) where
  base := h.base
  way := h.way
  sorted := h.sorted
  queued := h.queued
  met := h.met
  left := h.left
  followed hm := by
    rcases List.mem_cons.mp hm with heq | hm
    · cases heq
      exact ⟨hid, hup, hn ▸ h.met hup⟩
    · exact h.followed hm

theorem meet (h : Layered c q start n f) (he : c.Explored q start f) (hid : f.Met start id)
    (hn : f.height id = n) (hnew : ¬f.Met start up) (hup : c.Climbs q id up) :
    Layered c q start n (f.meet id up) := by
  have hold : ∀ {x}, f.Met start x → x ≠ up := fun hm heq => hnew (heq ▸ hm)
  have hsame : ∀ {x}, f.Met start x → (f.meet id up).height x = f.height x := fun hm =>
    height_meet_of_ne f id (hold hm)
  have htop : (f.meet id up).height up = n + 1 := hn ▸ height_meet_self f id up
  refine
    { base := (hsame (.inl rfl)).trans h.base
      way := fun {x} hm => ?way
      sorted := ?sorted
      queued := fun {x} hm => ?queued
      met := fun {x} hm => ?met
      left := fun {x} hm hq => ?left
      followed := fun {x y} hm => ?followed }
  case way =>
    rcases Frontier.met_meet.mp hm with rfl | hm
    · rw [wayDown_meet_self]
      exact (h.way hid).up hup
    · rw [wayDown_meet_of_ne f id (hold hm)]
      exact h.way hm
  case sorted =>
    refine List.pairwise_append.mpr ⟨h.sorted.imp_of_mem fun hx hy hle => ?_,
      List.pairwise_singleton _ _, fun x hx y hy => ?_⟩
    · rwa [hsame (he.queued hx), hsame (he.queued hy)]
    · rw [List.mem_singleton.mp hy, htop, hsame (he.queued hx)]
      exact h.met (he.queued hx)
  case queued =>
    rcases List.mem_append.mp hm with hm | hm
    · rw [hsame (he.queued hm)]
      exact h.queued hm
    · rw [List.mem_singleton.mp hm, htop]
      exact Nat.le_succ n
  case met =>
    rcases Frontier.met_meet.mp hm with rfl | hm
    · exact htop.le
    · rw [hsame hm]
      exact h.met hm
  case left =>
    rcases Frontier.met_meet.mp hm with rfl | hm
    · exact absurd (List.mem_append_right _ List.mem_cons_self) hq
    · rw [hsame hm]
      exact h.left hm fun hin => hq (List.mem_append_left _ hin)
  case followed =>
    rcases List.mem_cons.mp hm with heq | hm
    · cases heq
      refine ⟨Frontier.met_meet.mpr (.inr hid), Frontier.met_meet.mpr (.inl rfl), ?_⟩
      rw [htop, hsame hid, hn]
    · obtain ⟨hx, hy, hle⟩ := h.followed hm
      refine ⟨Frontier.met_meet.mpr (.inr hx), Frontier.met_meet.mpr (.inr hy), ?_⟩
      rwa [hsame hx, hsame hy]

/-- **Whatever has a way of no more items than the layer counts was met**, and no higher up. -/
theorem met_of_way (h : Layered c q start n f) (hc : c.Closed q start f) {l : List ItemId}
    (hw : c.Way q start x l) (hl : l.length ≤ n) : f.Met start x ∧ f.height x ≤ l.length := by
  induction hw with
  | start => exact ⟨.inl rfl, h.base.le⟩
  | @up id up l _ hup ih =>
    rw [List.length_cons] at hl ⊢
    obtain ⟨hm, hle⟩ := ih (by omega)
    obtain ⟨i, e, edge, hi, he, hs, _, hb, rfl, _⟩ := hup
    -- it is below the layer, so it has left the queue
    have hn : id ∉ f.queue := fun hq => by
      have := h.queued hq
      omega
    obtain ⟨edge', hs', _, hp⟩ := hc hm hn hi e he
    cases hs.symm.trans hs'
    obtain ⟨hup, hfollowed⟩ := hp hb
    have := (h.followed hfollowed).2.2
    exact ⟨hup, by omega⟩

end Layered

/-! ## The search -/

/-- What is found is in the next layer; `goes` says what holds of a part of the search that found
nothing. -/
def Lifts (c : Cabinet) (q : Quest) (start : ItemId) (n : Nat) (goes : Frontier → Prop) :
    Progress → Prop
  | .moving f => goes f
  | .arrived up f =>
    c.Way q start up (wayDown up f.reached) ∧ (wayDown up f.reached).length = n + 1
  | .broken => True

/-- The search deals with `id`, an item of the layer `n`. -/
structure Dealing (c : Cabinet) (q : Quest) (start : ItemId) (n : Nat) (id : ItemId)
    (f : Frontier) : Prop where
  explored : c.Explored q start f
  met : f.Met start id
  layered : Layered c q start n f
  height : f.height id = n

theorem Layered.dealing {queue : List ItemId} (h : Layered c q start n f)
    (he : c.Explored q start f) (hq : f.queue = id :: queue) :
    c.Dealing q start (f.height id) id { f with queue } :=
  ⟨(he.pop hq).1, (he.pop hq).2, (h.front hq).pop hq, rfl⟩

/-- **An edge of an item of a layer leads to the next one at most.** -/
theorem Deals.lifts {e : EdgeId} {i : Item} {p : Progress} (hd : c.Deals q id e f p)
    (hi : c.item? id = some i) (he : e ∈ i.parentEdges) (h : c.Dealing q start n id f) :
    c.Lifts q start n (c.Dealing q start n id) p := by
  have hnew : ∀ {up}, up ∈ f.unmet → ¬f.Met start up :=
    fun hm => (h.explored.mem_unmet_iff.mp hm).2
  cases hd with
  | dangling => trivial
  | boundary => exact h
  | @known edge j hlead hm =>
    have hup := hlead.climbs hi he
    exact ⟨h.explored.follow hup, h.met,
      h.layered.follow h.met h.height (h.explored.met_of_leadsUp hlead hm), h.height⟩
  | @new edge j hlead hm ht =>
    have hup := hlead.climbs hi he
    have hne : id ≠ edge.container := fun heq => hnew hm (heq ▸ h.met)
    exact ⟨h.explored.meet h.met hup hlead.upper ht, Frontier.met_meet.mpr (.inr h.met),
      h.layered.meet h.explored h.met h.height (hnew hm) hup,
      (height_meet_of_ne f id hne).trans h.height⟩
  | @target edge j hlead hm ht =>
    refine ⟨?_, (height_meet_self f id edge.container).trans (congrArg (· + 1) h.height)⟩
    show c.Way q start edge.container (wayDown edge.container (f.meet id edge.container).reached)
    rw [wayDown_meet_self]
    exact (h.layered.way h.met).up (hlead.climbs hi he)

theorem followEdges_lifts {i : Item} (hi : c.item? id = some i) {l : List EdgeId}
    (hl : ∀ e ∈ l, e ∈ i.parentEdges) (h : c.Dealing q start n id f) :
    c.Lifts q start n (c.Dealing q start n id) (c.followEdges q id l f) :=
  followEdges_rel (fun e he _ _ hf hd => hd.lifts hi (hl e he) hf) h

/-- No way to what is looked for has fewer items. -/
def Nearest (c : Cabinet) (q : Quest) (start : ItemId) (l : List ItemId) : Prop :=
  ∀ {x j l'}, c.Way q start x l' → c.item? x = some j → q.isTarget j = true → l.length ≤ l'.length

/-- What was found, if anything was, is nearest, and a way to it is told. -/
def FindsNearest (c : Cabinet) (q : Quest) (start : ItemId) : Progress → Prop
  | .arrived up f =>
    c.Way q start up (wayDown up f.reached) ∧ c.Nearest q start (wayDown up f.reached)
  | _ => True

/-- **What a search finds is nearest.** -/
theorem ascendFrom_nearest (he : c.Explored q start f) (hc : c.Closed q start f)
    (h : Layered c q start n f) : c.FindsNearest q start (c.ascendFrom q f) := by
  refine ascendFrom_rel
    (I := fun g => c.Explored q start g ∧ c.Closed q start g ∧ ∃ n, Layered c q start n g)
    (fun _ _ _ => trivial) ?_ ?_ ⟨he, hc, n, h⟩
  · intro f id queue ⟨he, _⟩ hq
    exact (he.stored (he.pop hq).2).imp fun _ => And.left
  · intro f id queue i ⟨he, hc, n, h⟩ hq hi
    have hl := h.front hq
    have hat := h.dealing he hq
    have htell := followEdges_tells hi (fun _ he => he) hat.explored hat.met
    have hlift := followEdges_lifts hi (fun _ he => he) hat
    cases hp : c.followEdges q id i.parentEdges { f with queue } with
    | broken => trivial
    | moving g =>
      rw [hp] at htell hlift
      obtain ⟨hg, hon, hpassed⟩ := htell
      exact ⟨hg, hc.pop hq hi hon hpassed, _, hlift.layered⟩
    | arrived up g =>
      rw [hp] at hlift
      refine ⟨hlift.1, fun {x j l'} hw hj ht => ?_⟩
      rw [hlift.2]
      by_contra hlt
      -- everything that is nearer was met before, and was not what is looked for
      obtain ⟨hm, _⟩ := hl.met_of_way hc hw (Nat.le_of_lt_succ (Nat.lt_of_not_le hlt))
      obtain ⟨j', hj', ht'⟩ := he.stored hm
      cases hj.symm.trans hj'
      rw [ht] at ht'
      cases ht'

/-! ## Paths -/

/-- **A path is a right answer to a search**: it is empty exactly if there is no way to what is
looked for, and is a shortest such way otherwise. -/
structure Shortest (c : Cabinet) (q : Quest) (start : ItemId) (p : ItemPath) : Prop where
  isEmpty_iff : p.isEmpty = true ↔
    ∀ x j l, c.Way q start x l → c.item? x = some j → q.isTarget j = false
  way : p.isEmpty = false →
    ∃ x j, c.Way q start x p.nodes ∧ c.item? x = some j ∧ q.isTarget j = true
  nearest : p.isEmpty = false → c.Nearest q start p.nodes

theorem Way.shortest {l : List ItemId} {j : Item} (hw : c.Way q start x l)
    (hj : c.item? x = some j) (ht : q.isTarget j = true) (hn : c.Nearest q start l) :
    c.Shortest q start ⟨l⟩ where
  isEmpty_iff := by
    refine ⟨fun hempty => absurd (List.isEmpty_iff.mp hempty) hw.ne_nil, fun hall => ?_⟩
    rw [hall x j l hw hj] at ht
    cases ht
  way _ := ⟨x, j, hw, hj, ht⟩
  nearest _ := hn

/-- **The path that a search tells is a right answer.** -/
theorem Coherent.shortestPath?_tells (h : c.Coherent) (ha : c.Acyclic)
    (hs : ∃ i, c.item? start = some i) :
    ∃ p, c.shortestPath? q start = some p ∧ c.Shortest q start p := by
  obtain ⟨i, hi⟩ := hs
  rw [shortestPath?]
  rcases h.ascend?_cases (q := q) ha hi with
      ⟨ht, hasc⟩ | ⟨ht, ⟨up, f, hp, hasc⟩ | ⟨f, hp, hasc⟩⟩ <;>
    rw [hasc, Option.map_some] <;> refine ⟨_, rfl, ?_⟩
  · exact Way.shortest .start hi ht fun hw _ _ => List.length_pos_iff.mpr hw.ne_nil
  · have htell := ascendFrom_tells (explored_outset hi ht) (closed_outset (c := c) (q := q))
    have hnear := ascendFrom_nearest (explored_outset hi ht) (closed_outset (q := q)) .outset
    rw [hp] at htell hnear
    obtain ⟨_, ⟨j, hj, htar⟩, _⟩ := htell
    exact hnear.1.shortest hj htar hnear.2
  · have htell := ascendFrom_tells (explored_outset hi ht) (closed_outset (c := c) (q := q))
    rw [hp] at htell
    obtain ⟨he, hc, hq, _⟩ := htell
    have hempty : ItemPath.empty.isEmpty ≠ false := Bool.false_ne_true.symm
    refine ⟨⟨fun _ x j l hw hj => ?_, fun _ => rfl⟩, fun h => absurd h hempty,
      fun h => absurd h hempty⟩
    obtain ⟨j', hj', htar⟩ := he.stored (hc.met_of_reachable hq hw.reachable)
    cases hj.symm.trans hj'
    exact htar

end Cabinet

end Filing
