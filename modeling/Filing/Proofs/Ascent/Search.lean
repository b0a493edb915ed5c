import Filing.Ascent.Search
import Filing.Proofs.Cabinet.Sound
import Filing.Proofs.Graph.DepthFirst

/-!
# What a search upwards finds

A search climbs along the edges that an item lists, as far as they lead somewhere and are no
boundary (`Climbs`).  What it has met so far is reachable, and what it has met and is not in the
queue any more has been dealt with: each of its edges was followed, or is a boundary (`Explored`,
`Closed`).  So when the queue is empty, everything reachable has been met, and when the search stops
before that, it is at what it was looking for (`ascendFrom_tells`).

* `Coherent.ascend?_tells`: **in a coherent cabinet without cycles every search comes to an
  answer**, and the answer is right.
* `Coherent.reaches_iff`: one item is reached from another exactly if it is the other or lies above
  it, provided that it bears the identifier under which it is stored.
-/

namespace Filing

open Relation

theorem ItemPath.isEmpty_eq_false_iff {p : ItemPath} :
    p.isEmpty = false ↔ ∃ id, p.top? = some id := by
  rw [isEmpty, top?]
  cases p.nodes <;> simp

/-- What the search has met: the start and the containers that were reached. -/
def Frontier.Met (f : Frontier) (start id : ItemId) : Prop := id = start ∨ id ∈ f.reached.map (·.1)

/-- The frontier after an edge was followed from `id` to `up`. -/
def Frontier.follow (f : Frontier) (id up : ItemId) : Frontier :=
  { f with followed := (id, up) :: f.followed }

/-- The frontier after `up` was met from `id`. -/
def Frontier.meet (f : Frontier) (id up : ItemId) : Frontier :=
  { queue := f.queue ++ [up], unmet := f.unmet.erase up, reached := (up, id) :: f.reached
    followed := (id, up) :: f.followed }

theorem Frontier.met_meet {f : Frontier} {start id up j : ItemId} :
    (f.meet id up).Met start j ↔ j = up ∨ f.Met start j := by
  rw [Met, Met, meet, List.map_cons, List.mem_cons]
  tauto

namespace Cabinet

variable {c : Cabinet} {q : Quest} {start id : ItemId} {f g : Frontier}

/-- An edge that `id` lists leads up to `up`, and a search may follow it. -/
def Climbs (c : Cabinet) (q : Quest) (id up : ItemId) : Prop :=
  ∃ i e edge, c.item? id = some i ∧ e ∈ i.parentEdges ∧ c.edge? e = some edge ∧ edge.item = id ∧
    q.isBoundary edge = false ∧ edge.container = up ∧ ∃ j, c.item? up = some j

theorem Climbs.holds {up : ItemId} (h : c.Climbs q id up) : c.Holds up id := by
  obtain ⟨_, e, edge, _, _, he, hid, _, hc, _⟩ := h
  exact ⟨e, edge, he, hc, hid⟩

/-- An edge that `id` lists was dealt with. -/
def Passed (c : Cabinet) (q : Quest) (start : ItemId) (f : Frontier) (id : ItemId) (e : EdgeId) :
    Prop :=
  ∃ edge, c.edge? e = some edge ∧ edge.item = id ∧
    (q.isBoundary edge = false → f.Met start edge.container ∧ (id, edge.container) ∈ f.followed)

/-- What holds all along a search that has not found anything. -/
structure Explored (c : Cabinet) (q : Quest) (start : ItemId) (f : Frontier) : Prop where
  unmet_nodup : f.unmet.Nodup
  mem_unmet_iff : ∀ {id}, id ∈ f.unmet ↔ (∃ i, c.item? id = some i) ∧ ¬f.Met start id
  stored : ∀ {id}, f.Met start id → ∃ i, c.item? id = some i ∧ q.isTarget i = false
  reachable : ∀ {id}, f.Met start id → ReflTransGen (c.Climbs q) start id
  queued : ∀ {id}, id ∈ f.queue → f.Met start id
  climbs : ∀ {id up}, (id, up) ∈ f.followed → c.Climbs q id up

/-- What has left the queue was dealt with. -/
def Closed (c : Cabinet) (q : Quest) (start : ItemId) (f : Frontier) : Prop :=
  ∀ {id i}, f.Met start id → id ∉ f.queue → c.item? id = some i →
    ∀ e ∈ i.parentEdges, c.Passed q start f id e

/-- How the search goes on from one frontier to the next. -/
structure Onwards (start : ItemId) (f g : Frontier) : Prop where
  met : ∀ {id}, f.Met start id → g.Met start id
  queue : ∀ {id}, id ∈ f.queue → id ∈ g.queue
  followed : ∀ {a}, a ∈ f.followed → a ∈ g.followed
  new : ∀ {id}, g.Met start id → f.Met start id ∨ id ∈ g.queue

namespace Onwards

theorem refl (start : ItemId) (f : Frontier) : Onwards start f f := ⟨id, id, id, .inl⟩

theorem trans {h : Frontier} (hf : Onwards start f g) (hg : Onwards start g h) :
    Onwards start f h where
  met hm := hg.met (hf.met hm)
  queue hm := hg.queue (hf.queue hm)
  followed hm := hg.followed (hf.followed hm)
  new hm := by
    rcases hg.new hm with hm | hm
    · exact (hf.new hm).imp_right hg.queue
    · exact .inr hm

theorem passed (h : Onwards start f g) {e : EdgeId} (hp : c.Passed q start f id e) :
    c.Passed q start g id e := by
  obtain ⟨edge, he, hid, hb⟩ := hp
  exact ⟨edge, he, hid, fun hn => ⟨h.met (hb hn).1, h.followed (hb hn).2⟩⟩

end Onwards

/-! ## One edge -/

theorem Onwards.follow (start : ItemId) (f : Frontier) (id up : ItemId) :
    Onwards start f (f.follow id up) where
  met hm := hm
  queue hm := hm
  followed hm := List.mem_cons_of_mem _ hm
  new hm := .inl hm

theorem Onwards.meet (start : ItemId) (f : Frontier) (id up : ItemId) :
    Onwards start f (f.meet id up) where
  met hm := Frontier.met_meet.mpr (.inr hm)
  queue hm := List.mem_append_left _ hm
  followed hm := List.mem_cons_of_mem _ hm
  new hm := by
    rcases Frontier.met_meet.mp hm with rfl | hm
    · exact .inr (List.mem_append_right _ List.mem_cons_self)
    · exact .inl hm

namespace Explored

variable {up : ItemId} {j : Item}

theorem follow (h : c.Explored q start f) (hup : c.Climbs q id up) :
    c.Explored q start (f.follow id up) where
  unmet_nodup := h.unmet_nodup
  mem_unmet_iff := h.mem_unmet_iff
  stored := h.stored
  reachable := h.reachable
  queued := h.queued
  climbs hm := by
    rcases List.mem_cons.mp hm with heq | hm
    · cases heq
      exact hup
    · exact h.climbs hm

theorem meet (h : c.Explored q start f) (hid : f.Met start id) (hup : c.Climbs q id up)
    (hj : c.item? up = some j) (ht : q.isTarget j = false) :
    c.Explored q start (f.meet id up) where
  unmet_nodup := h.unmet_nodup.erase up
  mem_unmet_iff := by
    intro k
    show k ∈ f.unmet.erase up ↔ _
    rw [h.unmet_nodup.mem_erase_iff, h.mem_unmet_iff, Frontier.met_meet]
    tauto
  stored hm := by
    rcases Frontier.met_meet.mp hm with rfl | hm
    · exact ⟨j, hj, ht⟩
    · exact h.stored hm
  reachable hm := by
    rcases Frontier.met_meet.mp hm with rfl | hm
    · exact (h.reachable hid).tail hup
    · exact h.reachable hm
  queued hm := by
    rcases List.mem_append.mp hm with hm | hm
    · exact Frontier.met_meet.mpr (.inr (h.queued hm))
    · exact Frontier.met_meet.mpr (.inl (List.mem_singleton.mp hm))
  climbs hm := (h.follow hup).climbs hm

end Explored

/-- An edge that `id` lists is not stored, or not as an edge of `id`, or leads to no stored item. -/
def Dangling (c : Cabinet) (q : Quest) (id : ItemId) (e : EdgeId) : Prop :=
  ∀ edge, c.edge? e = some edge → edge.item = id →
    q.isBoundary edge = false ∧ c.item? edge.container = none

/-- What the outcome of a part of a search tells; `goes` says it of a part that found nothing. -/
def Tells (c : Cabinet) (q : Quest) (start : ItemId) (goes : Frontier → Prop) : Progress → Prop
  | .moving f => goes f
  | .arrived up f => ReflTransGen (c.Climbs q) start up ∧
    (∃ j, c.item? up = some j ∧ q.isTarget j = true) ∧
    ∀ {id up}, (id, up) ∈ f.followed → c.Climbs q id up
  | .broken => ∃ id i e, ReflTransGen (c.Climbs q) start id ∧ c.item? id = some i ∧
    e ∈ i.parentEdges ∧ c.Dangling q id e

theorem Tells.imp {goes goes' : Frontier → Prop} {p : Progress} (h : c.Tells q start goes p)
    (hg : ∀ f, goes f → goes' f) : c.Tells q start goes' p := by
  cases p with
  | moving f => exact hg f h
  | _ => exact h

/-- An edge that `id` lists may be followed to a stored item. -/
structure LeadsUp (c : Cabinet) (q : Quest) (id : ItemId) (e : EdgeId) (edge : Edge) (j : Item) :
    Prop where
  stored : c.edge? e = some edge
  item_eq : edge.item = id
  passable : q.isBoundary edge = false
  upper : c.item? edge.container = some j

theorem LeadsUp.climbs {e : EdgeId} {edge : Edge} {i j : Item} (h : c.LeadsUp q id e edge j)
    (hi : c.item? id = some i) (he : e ∈ i.parentEdges) : c.Climbs q id edge.container :=
  ⟨i, e, edge, hi, he, h.stored, h.item_eq, h.passable, rfl, j, h.upper⟩

/-- What one edge that `id` lists makes of a frontier. -/
inductive Deals (c : Cabinet) (q : Quest) (id : ItemId) (e : EdgeId) (f : Frontier) :
    Progress → Prop
  | dangling : c.Dangling q id e → Deals c q id e f .broken
  | boundary {edge : Edge} : c.edge? e = some edge → edge.item = id → q.isBoundary edge = true →
      Deals c q id e f (.moving f)
  | known {edge : Edge} {j : Item} : c.LeadsUp q id e edge j → edge.container ∉ f.unmet →
      Deals c q id e f (.moving (f.follow id edge.container))
  | new {edge : Edge} {j : Item} : c.LeadsUp q id e edge j → edge.container ∈ f.unmet →
      q.isTarget j = false → Deals c q id e f (.moving (f.meet id edge.container))
  | target {edge : Edge} {j : Item} : c.LeadsUp q id e edge j → edge.container ∈ f.unmet →
      q.isTarget j = true →
      Deals c q id e f
        (.arrived edge.container { f.meet id edge.container with queue := f.queue })

theorem followEdges_cons (c : Cabinet) (q : Quest) (id : ItemId) (e : EdgeId) (rest : List EdgeId)
    (f : Frontier) : ∃ p, c.Deals q id e f p ∧ c.followEdges q id (e :: rest) f =
      match p with
      | .moving g => c.followEdges q id rest g
      | p => p := by
  rw [followEdges]
  cases he : c.edge? e with
  | none =>
    refine ⟨_, .dangling fun edge hs _ => ?_, rfl⟩
    exact absurd (hs.symm.trans he) (Option.some_ne_none edge)
  | some edge =>
    dsimp only
    by_cases hitem : edge.item = id
    · rw [if_neg (not_not.mpr hitem)]
      cases hb : q.isBoundary edge with
      | true => exact ⟨_, .boundary he hitem hb, rfl⟩
      | false =>
        rw [if_neg Bool.false_ne_true]
        cases hj : c.item? edge.container with
        | none =>
          refine ⟨_, .dangling fun edge' hs _ => ?_, rfl⟩
          cases he.symm.trans hs
          exact ⟨hb, hj⟩
        | some j =>
          have hlead : c.LeadsUp q id e edge j := ⟨he, hitem, hb, hj⟩
          dsimp only
          by_cases hm : edge.container ∈ f.unmet
          · rw [if_pos hm]
            cases ht : q.isTarget j with
            | true => exact ⟨_, .target hlead hm ht, rfl⟩
            | false => exact ⟨_, .new hlead hm ht, rfl⟩
          · rw [if_neg hm]
            exact ⟨_, .known hlead hm, rfl⟩
    · rw [if_pos hitem]
      refine ⟨_, .dangling fun edge' hs hid => ?_, rfl⟩
      cases he.symm.trans hs
      exact absurd hid hitem

/-- **A statement about what a list of edges makes of a frontier goes by what one edge keeps.**  It
may mention the edges that were dealt with, as long as the search goes on. -/
theorem followEdges_along {T : List EdgeId → Progress → Prop} {all : List EdgeId}
    (hstep : ∀ {done e rest f p}, all = done ++ e :: rest → T done (.moving f) →
      c.Deals q id e f p → T (done ++ [e]) p)
    (hstop : ∀ {done p}, (∀ f, p ≠ .moving f) → T done p → T all p) {done rest : List EdgeId}
    (hall : all = done ++ rest) (h : T done (.moving f)) : T all (c.followEdges q id rest f) := by
  induction rest generalizing done f with
  | nil =>
    rw [hall, List.append_nil]
    exact h
  | cons e rest ih =>
    obtain ⟨p, hd, heq⟩ := c.followEdges_cons q id e rest f
    have hp := hstep hall h hd
    rw [heq]
    cases p with
    | moving g => exact ih (hall.trans (List.append_cons ..)) hp
    | arrived | broken => exact hstop nofun hp

theorem followEdges_rel {T : Progress → Prop} {l : List EdgeId}
    (hstep : ∀ e ∈ l, ∀ f p, T (.moving f) → c.Deals q id e f p → T p) (h : T (.moving f)) :
    T (c.followEdges q id l f) := by
  refine followEdges_along (T := fun _ => T) (fun hall hf hd => ?_) (fun _ hp => hp)
    (List.nil_append l).symm h
  exact hstep _ (hall ▸ List.mem_append_right _ List.mem_cons_self) _ _ hf hd

theorem Explored.met_of_leadsUp (h : c.Explored q start f) {e : EdgeId} {edge : Edge} {j : Item}
    (hl : c.LeadsUp q id e edge j) (hn : edge.container ∉ f.unmet) :
    f.Met start edge.container := by
  by_contra hm
  exact hn (h.mem_unmet_iff.mpr ⟨⟨j, hl.upper⟩, hm⟩)

/-- **Every edge is dealt with**, unless the search stops at it. -/
theorem Deals.tells {e : EdgeId} {i : Item} {p : Progress} (hd : c.Deals q id e f p)
    (hi : c.item? id = some i) (he : e ∈ i.parentEdges) (h : c.Explored q start f)
    (hid : f.Met start id) :
    c.Tells q start (fun g => c.Explored q start g ∧ Onwards start f g ∧
      c.Passed q start g id e) p := by
  cases hd with
  | dangling hd => exact ⟨id, i, e, h.reachable hid, hi, he, hd⟩
  | @boundary edge hs hitem hb => exact ⟨h, .refl start f, edge, hs, hitem, by simp [hb]⟩
  | @known edge j hl hn =>
    exact ⟨h.follow (hl.climbs hi he), .follow start f id edge.container, edge, hl.stored,
      hl.item_eq, fun _ => ⟨h.met_of_leadsUp hl hn, List.mem_cons_self⟩⟩
  | @new edge j hl _ ht =>
    exact ⟨h.meet hid (hl.climbs hi he) hl.upper ht, .meet start f id edge.container, edge,
      hl.stored, hl.item_eq, fun _ => ⟨Frontier.met_meet.mpr (.inl rfl), List.mem_cons_self⟩⟩
  | @target edge j hl _ ht =>
    exact ⟨(h.reachable hid).tail (hl.climbs hi he), ⟨j, hl.upper, ht⟩,
      (h.follow (hl.climbs hi he)).climbs⟩

theorem followEdges_tells {i : Item} (hi : c.item? id = some i) {l : List EdgeId}
    (hl : ∀ e ∈ l, e ∈ i.parentEdges) (h : c.Explored q start f) (hid : f.Met start id) :
    c.Tells q start (fun g => c.Explored q start g ∧ Onwards start f g ∧
      ∀ e ∈ l, c.Passed q start g id e) (c.followEdges q id l f) := by
  induction l generalizing f with
  | nil => exact ⟨h, .refl start f, fun _ hm => absurd hm List.not_mem_nil⟩
  | cons e rest ih =>
    rw [List.forall_mem_cons] at hl
    obtain ⟨p, hd, heq⟩ := c.followEdges_cons q id e rest f
    have htell := hd.tells hi hl.1 h hid
    rw [heq]
    cases p with
    | moving g =>
      obtain ⟨hg, hon, hp⟩ := htell
      -- an edge that was dealt with stays so while the rest is
      refine (ih hl.2 hg (hon.met hid)).imp fun g' ⟨hg', hon', hp'⟩ => ?_
      exact ⟨hg', hon.trans hon', List.forall_mem_cons.mpr ⟨hon'.passed hp, hp'⟩⟩
    | arrived => exact htell
    | broken => exact htell

/-! ## The search -/

theorem Closed.pop {queue : List ItemId} {i : Item} (h : c.Closed q start f)
    (hq : f.queue = id :: queue) (hi : c.item? id = some i)
    (hon : Onwards start { f with queue } g)
    (hp : ∀ e ∈ i.parentEdges, c.Passed q start g id e) : c.Closed q start g := by
  intro k j hm hn hj e he
  by_cases hk : k = id
  · subst hk
    cases hi.symm.trans hj
    exact hp e he
  · rcases hon.new hm with hm | hm
    · refine hon.passed (@h k j hm (fun hin => ?_) hj e he)
      rw [hq] at hin
      rcases List.mem_cons.mp hin with rfl | hin
      · exact hk rfl
      · exact hn (hon.queue hin)
    · exact absurd hm hn

theorem ascendFrom_cons {queue : List ItemId} {i : Item} (hq : f.queue = id :: queue)
    (hi : c.item? id = some i) :
    c.ascendFrom q f =
      match c.followEdges q id i.parentEdges { f with queue } with
      | .moving g => c.ascendFrom q g
      | p => p := by
  rw [ascendFrom, hq]
  simp only [hi]
  cases c.followEdges q id i.parentEdges { f with queue } <;> rfl

/-- **A statement about the outcome of a search goes by what one step keeps.** -/
theorem ascendFrom_rel {I : Frontier → Prop} {T : Progress → Prop}
    (hend : ∀ f, I f → f.queue = [] → T (.moving f))
    (hstored : ∀ f id queue, I f → f.queue = id :: queue → ∃ i, c.item? id = some i)
    (hstep : ∀ f id queue i, I f → f.queue = id :: queue → c.item? id = some i →
      match c.followEdges q id i.parentEdges { f with queue } with
      | .moving g => I g
      | p => T p) (h : I f) : T (c.ascendFrom q f) := by
  induction f using ascendFrom.induct c q with
  | case1 f hq =>
    rw [ascendFrom, hq]
    exact hend f h hq
  | case2 f id queue hq hi =>
    obtain ⟨i, hi'⟩ := hstored f id queue h hq
    cases hi.symm.trans hi'
  | case3 f id queue hq i hi g hg ih =>
    have hs := hstep f id queue i h hq hi
    rw [hg] at hs
    rw [ascendFrom_cons hq hi, hg]
    exact ih hs
  | case4 f id queue hq i hi up g hg =>
    have hs := hstep f id queue i h hq hi
    rw [hg] at hs
    rw [ascendFrom_cons hq hi, hg]
    exact hs
  | case5 f id queue hq i hi hg =>
    have hs := hstep f id queue i h hq hi
    rw [hg] at hs
    rw [ascendFrom_cons hq hi, hg]
    exact hs

theorem Explored.pop {queue : List ItemId} (h : c.Explored q start f) (hq : f.queue = id :: queue) :
    c.Explored q start { f with queue } ∧ f.Met start id :=
  ⟨{ h with queued := fun hm => h.queued (hq ▸ List.mem_cons_of_mem _ hm) },
    h.queued (hq ▸ List.mem_cons_self)⟩

/-- **A search that ends with nothing found has dealt with everything it has met.** -/
theorem ascendFrom_tells (h : c.Explored q start f) (hc : c.Closed q start f) :
    c.Tells q start (fun g => c.Explored q start g ∧ c.Closed q start g ∧ g.queue = [] ∧
      ∀ {id}, f.Met start id → g.Met start id) (c.ascendFrom q f) := by
  refine ascendFrom_rel
    (I := fun g => c.Explored q start g ∧ c.Closed q start g ∧
      ∀ {id}, f.Met start id → g.Met start id) ?_ ?_ ?_ ⟨h, hc, id⟩
  · exact fun g ⟨hg, hc, hm⟩ hq => ⟨hg, hc, hq, hm⟩
  · intro g id queue ⟨hg, _⟩ hq
    exact (hg.stored (hg.pop hq).2).imp fun _ => And.left
  · intro g id queue i ⟨hg, hc, hm⟩ hq hi
    have htell := followEdges_tells hi (fun _ he => he) (hg.pop hq).1 (hg.pop hq).2
    cases hp : c.followEdges q id i.parentEdges { g with queue } with
    | moving g' =>
      rw [hp] at htell
      obtain ⟨hg', hon, hpassed⟩ := htell
      exact ⟨hg', hc.pop hq hi hon hpassed, fun hk => hon.met (hm hk)⟩
    | arrived up g' =>
      rw [hp] at htell
      exact htell
    | broken =>
      rw [hp] at htell
      exact htell

theorem Closed.met_of_reachable (hc : c.Closed q start f) (hq : f.queue = [])
    (hr : ReflTransGen (c.Climbs q) start id) : f.Met start id := by
  induction hr with
  | refl => exact .inl rfl
  | tail _ hup ih =>
    obtain ⟨i, e, edge, hi, he, hs, _, hb, rfl, _⟩ := hup
    obtain ⟨edge', hs', _, hp⟩ := hc ih (by simp [hq]) hi e he
    cases hs.symm.trans hs'
    exact (hp hb).1

/-- The frontier at which a search begins. -/
def outset (c : Cabinet) (start : ItemId) : Frontier :=
  { queue := [start], unmet := c.items.keys.erase start, reached := [], followed := [] }

theorem met_outset : (c.outset start).Met start id ↔ id = start := by
  simp [Frontier.Met, outset]

theorem explored_outset {i : Item} (hi : c.item? start = some i) (ht : q.isTarget i = false) :
    c.Explored q start (c.outset start) where
  unmet_nodup := c.items.keys_nodup.erase start
  mem_unmet_iff := by
    intro k
    show k ∈ c.items.keys.erase start ↔ _
    rw [c.items.keys_nodup.mem_erase_iff, met_outset, SortedMap.mem_keys_iff]
    exact and_comm
  stored hm := by
    rw [met_outset.mp hm]
    exact ⟨i, hi, ht⟩
  reachable hm := by
    rw [met_outset.mp hm]
  queued hm := met_outset.mpr (List.mem_singleton.mp hm)
  climbs hm := absurd hm List.not_mem_nil

theorem closed_outset : c.Closed q start (c.outset start) := by
  intro k i hm hn
  rw [met_outset.mp hm] at hn
  exact absurd List.mem_cons_self hn

/-! ## Coherent cabinets -/

namespace Coherent

theorem climbs_iff_edge (h : c.Coherent) {up : ItemId} :
    c.Climbs q id up ↔ ∃ e edge, c.edge? e = some edge ∧ edge.container = up ∧ edge.item = id ∧
      q.isBoundary edge = false := by
  constructor
  · rintro ⟨_, e, edge, _, _, he, hid, hb, hup, _⟩
    exact ⟨e, edge, he, hup, hid, hb⟩
  · rintro ⟨e, edge, he, rfl, rfl, hb⟩
    obtain ⟨i, hi, hm⟩ := h.parent_listed he
    obtain ⟨j, hj, _⟩ := h.child_listed he
    exact ⟨i, e, edge, hi, hm, he, rfl, hb, rfl, j, hj⟩

theorem climbs_iff (h : c.Coherent) {up : ItemId} (hb : ∀ edge, q.isBoundary edge = false) :
    c.Climbs q id up ↔ c.Holds up id := by
  rw [h.climbs_iff_edge]
  simp only [hb, and_true, Holds]

theorem not_dangling (h : c.Coherent) {i : Item} (hi : c.item? id = some i) {e : EdgeId}
    (he : e ∈ i.parentEdges) : ¬c.Dangling q id e := by
  intro hd
  obtain ⟨edge, hs, hid⟩ := h.parent_stored hi he
  obtain ⟨j, hj, _⟩ := h.child_listed hs
  have hnone := (hd edge hs hid).2
  rw [hj] at hnone
  cases hnone

end Coherent

theorem Acyclic.hasCycleFrom (ha : c.Acyclic) {arcs : List (ItemId × ItemId)}
    (harcs : ∀ {id up}, (id, up) ∈ arcs → c.Climbs q id up) :
    Graph.hasCycleFrom start arcs = false := by
  rw [Bool.eq_false_iff, ne_eq, Graph.hasCycleFrom_iff]
  rintro ⟨x, _, hx⟩
  exact ha x (transGen_swap.mp (TransGen.mono (fun _ _ hab => (harcs hab).holds) x x hx))

/-- **In a coherent cabinet without cycles every search comes to an end**, at the start, at a
container or with nothing found, and what it then tells is trusted. -/
theorem Coherent.ascend?_cases (h : c.Coherent) (ha : c.Acyclic) {i : Item}
    (hi : c.item? start = some i) :
    (q.isTarget i = true ∧ c.ascend? q start = some ⟨some start, []⟩) ∨
      q.isTarget i = false ∧
        ((∃ up f, c.ascendFrom q (c.outset start) = .arrived up f ∧
            c.ascend? q start = some ⟨some up, f.reached⟩) ∨
          ∃ f, c.ascendFrom q (c.outset start) = .moving f ∧
            c.ascend? q start = some ⟨none, f.reached⟩) := by
  rw [ascend?, hi]
  simp only [Option.bind_eq_bind, Option.bind_some]
  cases ht : q.isTarget i with
  | true => exact .inl ⟨rfl, rfl⟩
  | false =>
    refine .inr ⟨rfl, ?_⟩
    have htell := ascendFrom_tells (explored_outset hi ht) (closed_outset (c := c) (q := q))
    rw [if_neg Bool.false_ne_true]
    rw [outset] at htell ⊢
    cases hp : c.ascendFrom q
        { queue := [start], unmet := c.items.keys.erase start, reached := [], followed := [] } with
    | broken =>
      rw [hp] at htell
      obtain ⟨id, j, e, _, hj, he, hd⟩ := htell
      exact absurd hd (h.not_dangling hj he)
    | arrived up f =>
      rw [hp] at htell
      simp only [ha.hasCycleFrom htell.2.2]
      exact .inl ⟨up, f, rfl, rfl⟩
    | moving f =>
      rw [hp] at htell
      simp only [ha.hasCycleFrom htell.1.climbs]
      exact .inr ⟨f, rfl, rfl⟩

/-- **In a coherent cabinet without cycles every search comes to an answer**: it finds an item that
is looked for, or there is none. -/
theorem Coherent.ascend?_tells (h : c.Coherent) (ha : c.Acyclic)
    (hs : ∃ i, c.item? start = some i) :
    ∃ a, c.ascend? q start = some a ∧
      (∀ id, a.found = some id →
        ReflTransGen (c.Climbs q) start id ∧ ∃ i, c.item? id = some i ∧ q.isTarget i = true) ∧
      (a.found = none → ∀ id i, ReflTransGen (c.Climbs q) start id → c.item? id = some i →
        q.isTarget i = false) := by
  obtain ⟨i, hi⟩ := hs
  rcases h.ascend?_cases (q := q) ha hi with ⟨ht, hasc⟩ | ⟨ht, ⟨up, f, hp, hasc⟩ | ⟨f, hp, hasc⟩⟩
  · refine ⟨_, hasc, ?_, nofun⟩
    rintro _ ⟨⟩
    exact ⟨.refl, i, hi, ht⟩
  · have htell := ascendFrom_tells (explored_outset hi ht) (closed_outset (c := c) (q := q))
    rw [hp] at htell
    refine ⟨_, hasc, ?_, nofun⟩
    rintro _ ⟨⟩
    exact ⟨htell.1, htell.2.1⟩
  · have htell := ascendFrom_tells (explored_outset hi ht) (closed_outset (c := c) (q := q))
    rw [hp] at htell
    obtain ⟨he, hc, hq, _⟩ := htell
    refine ⟨_, hasc, nofun, fun _ id j hr hj => ?_⟩
    obtain ⟨j', hj', htar⟩ := he.stored (hc.met_of_reachable hq hr)
    cases hj.symm.trans hj'
    exact htar

/-! ## Paths -/

theorem head?_wayDown (id : ItemId) (l : List (ItemId × ItemId)) :
    (wayDown id l).head? = some id := by
  induction l with
  | nil => rfl
  | cons a rest ih =>
    unfold wayDown
    split
    · rfl
    · exact ih

/-- **The search for an item finds it** exactly if an item that bears its identifier is the start or
lies above it, and the path that it tells begins there. -/
theorem Coherent.shortestPathTo?_tells (h : c.Coherent) (ha : c.Acyclic)
    (hs : ∃ i, c.item? start = some i) (target : ItemId) :
    ∃ p, c.shortestPathTo? start target = some p ∧
      (∀ id, p.top? = some id →
        ReflTransGen c.Holds id start ∧ ∃ i, c.item? id = some i ∧ i.id = target) ∧
      (p.top? = none → ∀ id i, ReflTransGen c.Holds id start → c.item? id = some i →
        i.id ≠ target) := by
  obtain ⟨a, hasc, hsome, hnone⟩ := h.ascend?_tells (q := .forItem target) ha hs
  have hclimbs : c.Climbs (.forItem target) = Function.swap c.Holds := by
    funext x y
    exact propext (h.climbs_iff fun _ => rfl)
  have hr : ∀ id, ReflTransGen (c.Climbs (.forItem target)) start id ↔
      ReflTransGen c.Holds id start := fun id => by
    rw [hclimbs]
    exact reflTransGen_swap
  rw [shortestPathTo?, shortestPath?, hasc, Option.map_some]
  refine ⟨_, rfl, ?_⟩
  cases hf : a.found with
  | some id =>
    have htop : (⟨wayDown id a.reached⟩ : ItemPath).top? = some id := head?_wayDown id a.reached
    obtain ⟨hup, i, hi, ht⟩ := hsome id hf
    rw [htop]
    refine ⟨?_, nofun⟩
    rintro _ ⟨⟩
    exact ⟨(hr id).mp hup, i, hi, of_decide_eq_true ht⟩
  | none =>
    refine ⟨nofun, fun _ id i hup hi => ?_⟩
    exact of_decide_eq_false (hnone hf id i ((hr id).mpr hup) hi)

/-- **One item is reached from another** exactly if an item that bears its identifier is the other
or lies above it. -/
theorem Coherent.reaches_iff (h : c.Coherent) (ha : c.Acyclic) (hs : ∃ i, c.item? start = some i)
    {target : ItemId} :
    c.reaches start target = true ↔
      ∃ id i, ReflTransGen c.Holds id start ∧ c.item? id = some i ∧ i.id = target := by
  obtain ⟨p, hp, hsome, hnone⟩ := h.shortestPathTo?_tells ha hs target
  rw [reaches, hp]
  cases ht : p.top? with
  | some id =>
    obtain ⟨hr, i, hi, hid⟩ := hsome id ht
    have he : p.isEmpty = false := ItemPath.isEmpty_eq_false_iff.mpr ⟨id, ht⟩
    simp only [Option.any_some, he, Bool.not_false, true_iff]
    exact ⟨id, i, hr, hi, hid⟩
  | none =>
    have he : p.isEmpty = true := by
      by_contra he
      obtain ⟨id, hid⟩ := ItemPath.isEmpty_eq_false_iff.mp (Bool.eq_false_iff.mpr he)
      rw [ht] at hid
      cases hid
    simp only [Option.any_some, he, Bool.not_true, Bool.false_eq_true, false_iff]
    rintro ⟨id, i, hr, hi, hid⟩
    exact hnone ht id i hr hi hid

end Cabinet

end Filing
