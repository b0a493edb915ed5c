import Filing.Proofs.Ascent.Answers
import Filing.Proofs.Requests
import Mathlib.Data.List.Lex
import Mathlib.Data.Prod.Lex

/-!
# Of several shortest ways the one that is told

There may be several shortest ways from an item up to what is looked for.  A chain of edges is
given by the place of each of them in the list of the item that it leaves, and chains are compared
by their length and then by these places, from the start upwards (`rank`).

The search keeps to this order.  What it has met so far comes before all that it has not met: a
container that is met is reached by the first edge, of the first item of the queue, that leads to
something new, and the queue is in the order of the chains (`Lined`).  As long as the edges of one
item are dealt with, what is new comes after all that was met, as its last place is larger than
those before (`Heading`).

* `Heading.first`: **no way to what was not met comes before the one through the next edge.**
* `ascendFrom_first`: **a search that finds something tells the way that comes first.**
* `Request.toldPath_first`: **after every run the path that is told is the first of all shortest
  ones**, and it is empty only if there is none.
-/

namespace Filing

open Cabinet

namespace Cabinet

variable {c : Cabinet} {q : Quest} {start id up x y : ItemId} {f g : Frontier}

/-! ## The order of chains -/

/-- The rank of a list of places: by its length, and then by the places from the first on. -/
def rank (places : List Nat) : Nat ×ₗ List Nat := toLex (places.length, places)

section Rank

variable {s t : List Nat} {k m : Nat}

theorem rank_lt_iff : rank s < rank t ↔ s.length < t.length ∨ s.length = t.length ∧ s < t :=
  Prod.Lex.toLex_lt_toLex

theorem rank_injective : Function.Injective rank := by
  intro s t h
  exact congrArg Prod.snd (toLex.injective h)

theorem rank_nil_le (s : List Nat) : rank [] ≤ rank s := by
  cases s with
  | nil => exact le_rfl
  | cons k rest =>
    have hlt : rank [] < rank (k :: rest) := rank_lt_iff.mpr (.inl (Nat.succ_pos _))
    exact hlt.le

theorem rank_lt_append (s : List Nat) (k : Nat) : rank s < rank (s ++ [k]) := by
  refine rank_lt_iff.mpr (.inl ?_)
  rw [List.length_append]
  exact Nat.lt_succ_self _

theorem lt_append_of_lt (h : s < t) (hlen : s.length = t.length) (k m : Nat) :
    s ++ [k] < t ++ [m] := by
  induction (h : List.Lex (· < ·) s t) with
  | nil => simp at hlen
  | cons _ ih => exact .cons (ih (by simpa using hlen))
  | rel hlt => exact .rel hlt

/-- **A list that comes first does so whatever follows it.** -/
theorem rank_append_lt (h : rank s < rank t) (k m : Nat) : rank (s ++ [k]) < rank (t ++ [m]) := by
  rw [rank_lt_iff] at h ⊢
  rw [List.length_append, List.length_append, List.length_singleton, List.length_singleton]
  rcases h with hlt | ⟨heq, hlt⟩
  · left
    omega
  · right
    exact ⟨by omega, lt_append_of_lt hlt heq k m⟩

theorem rank_append_lt_of_lt (s : List Nat) (h : k < m) : rank (s ++ [k]) < rank (s ++ [m]) := by
  refine rank_lt_iff.mpr (.inr ⟨by simp, ?_⟩)
  exact List.append_left_lt (.rel h)

theorem rank_append_length_lt {α : Type} (s : List Nat) (done : List α) (a : α) :
    rank (s ++ [done.length]) < rank (s ++ [(done ++ [a]).length]) := by
  refine rank_append_lt_of_lt s ?_
  rw [List.length_append]
  exact Nat.lt_succ_self _

theorem rank_append_le (h : rank s ≤ rank t) (hk : k ≤ m) :
    rank (s ++ [k]) ≤ rank (t ++ [m]) := by
  rcases h.lt_or_eq with hlt | heq
  · exact (rank_append_lt hlt k m).le
  · obtain rfl := rank_injective heq
    rcases hk.lt_or_eq with hlt | rfl
    · exact (rank_append_lt_of_lt s hlt).le
    · exact le_rfl

end Rank

/-- The places of the steps of a way, from the start upwards: each is that of the upper item among
the containers of the lower one. -/
def steps (c : Cabinet) : List ItemId → List Nat
  | up :: id :: rest => c.steps (id :: rest) ++ [(c.parents id).idxOf up]
  | _ => []

theorem steps_cons {l : List ItemId} (h : l.head? = some id) (up : ItemId) :
    c.steps (up :: l) = c.steps l ++ [(c.parents id).idxOf up] := by
  obtain ⟨rest, rfl⟩ := List.head?_eq_some_iff.mp h
  rw [steps]

/-- The rank of the way down from a container that was met. -/
def standing (c : Cabinet) (f : Frontier) (id : ItemId) : Nat ×ₗ List Nat :=
  rank (c.steps (wayDown id f.reached))

theorem standing_meet_self (c : Cabinet) (f : Frontier) (id up : ItemId) :
    c.standing (f.meet id up) up =
      rank (c.steps (wayDown id f.reached) ++ [(c.parents id).idxOf up]) := by
  rw [standing, wayDown_meet_self, steps_cons (head?_wayDown id f.reached)]

theorem standing_meet_of_ne (c : Cabinet) (f : Frontier) (id : ItemId) (h : x ≠ up) :
    c.standing (f.meet id up) x = c.standing f x := by
  rw [standing, wayDown_meet_of_ne f id h, standing]

/-! ## Places -/

theorem Sound.idxOf_parents (hs : c.Sound) {i : Item} (hi : c.item? id = some i)
    {done rest : List EdgeId} {e : EdgeId} {edge : Edge}
    (hsplit : i.parentEdges = done ++ e :: rest) (he : c.edge? e = some edge) :
    (c.parents id).idxOf edge.container = done.length := by
  have hlen : ((done.filterMap c.edge?).map (·.container)).length = done.length := by
    rw [List.length_map]
    refine List.filterMap_length_eq_length.mpr ?_
    intro e' he'
    obtain ⟨edge', hs', _⟩ := hs.parent_stored hi (hsplit ▸ List.mem_append_left _ he')
    rw [hs']
    rfl
  have hparents : c.parents id = (done.filterMap c.edge?).map (·.container) ++
      edge.container :: (rest.filterMap c.edge?).map (·.container) := by
    rw [parents, parentEdges, hi]
    simp only [hsplit, List.filterMap_append, List.filterMap_cons, he, List.map_append,
      List.map_cons]
  have hn := hs.parents_nodup id
  rw [hparents, List.nodup_append] at hn
  have hnot : edge.container ∉ (done.filterMap c.edge?).map (·.container) := fun hm =>
    hn.2.2 _ hm _ List.mem_cons_self rfl
  rw [hparents, List.idxOf_append_of_notMem hnot, List.idxOf_cons_self, hlen, Nat.add_zero]

theorem Sound.idxOf_parents_of_getElem? (hs : c.Sound) {i : Item} (hi : c.item? id = some i)
    {k : Nat} {e : EdgeId} {edge : Edge} (hk : i.parentEdges[k]? = some e)
    (he : c.edge? e = some edge) : (c.parents id).idxOf edge.container = k := by
  obtain ⟨hlt, hget⟩ := List.getElem?_eq_some_iff.mp hk
  have hsplit : i.parentEdges = i.parentEdges.take k ++ e :: i.parentEdges.drop (k + 1) := by
    rw [← hget, ← List.drop_eq_getElem_cons hlt, List.take_append_drop]
  rw [hs.idxOf_parents hi hsplit he, List.length_take, Nat.min_eq_left hlt.le]

theorem Sound.le_idxOf_parents (hs : c.Sound) {i : Item} (hi : c.item? id = some i)
    {done rest : List EdgeId} {e : EdgeId} {edge : Edge} (hsplit : i.parentEdges = done ++ rest)
    (he : e ∈ i.parentEdges) (hdone : e ∉ done) (hs' : c.edge? e = some edge) :
    done.length ≤ (c.parents id).idxOf edge.container := by
  have hrest : e ∈ rest := (List.mem_append.mp (hsplit ▸ he)).resolve_left hdone
  obtain ⟨before, after, rfl⟩ := List.append_of_mem hrest
  rw [hs.idxOf_parents hi (hsplit.trans (List.append_assoc ..).symm) hs', List.length_append]
  omega

/-! ## At an edge -/

/-- The search deals with `id`, and is done with the first edges of its list. -/
structure Heading (c : Cabinet) (q : Quest) (start id : ItemId) (done : List EdgeId)
    (f : Frontier) : Prop extends Explored c q start f where
  here : f.Met start id
  passed : ∀ e ∈ done, c.Passed q start f id e
  /-- What has left the queue besides was dealt with. -/
  others : ∀ {x i e}, f.Met start x → x ∉ f.queue → x ≠ id → c.item? x = some i →
    e ∈ i.parentEdges → c.Passed q start f x e
  /-- No way to what was met comes before the one that is known. -/
  least : ∀ {x l}, f.Met start x → c.Way q start x l → c.standing f x ≤ rank (c.steps l)
  line : f.queue.Pairwise fun x y => c.standing f x < c.standing f y
  ahead : ∀ x ∈ f.queue, c.standing f id < c.standing f x
  /-- Everything that was met comes before what the next edge may lead to. -/
  bound : ∀ {x}, f.Met start x →
    c.standing f x < rank (c.steps (wayDown id f.reached) ++ [done.length])

namespace Heading

variable {done rest : List EdgeId} {i : Item}

/-- **No way to what was not met comes before the one through the next edge.** -/
theorem first (h : c.Heading q start id done f) (hs : c.Sound) (hi : c.item? id = some i)
    (hsplit : i.parentEdges = done ++ rest) {l : List ItemId} (hw : c.Way q start x l)
    (hx : ¬f.Met start x) :
    rank (c.steps (wayDown id f.reached) ++ [done.length]) ≤ rank (c.steps l) := by
  induction hw with
  | start => exact absurd (.inl rfl) hx
  | @up w x l hw hup ih =>
    rw [steps_cons hw.head?]
    by_cases hm : f.Met start w
    · have hleast := h.least hm hw
      obtain ⟨j, e, edge, hj, he, hse, _, hb, rfl, _⟩ := hup
      -- an edge that was dealt with leads to what was met
      have hnot : ∀ {f'}, c.Passed q start f' w e → f'.Met start edge.container := by
        rintro f' ⟨edge', hse', _, hp⟩
        cases hse.symm.trans hse'
        exact (hp hb).1
      by_cases hid : w = id
      · subst hid
        cases hi.symm.trans hj
        have hdone : e ∉ done := fun hmem => hx (hnot (h.passed e hmem))
        exact rank_append_le hleast (hs.le_idxOf_parents hi hsplit he hdone hse)
      · have hq : w ∈ f.queue := by
          by_contra hq
          exact hx (hnot (h.others hm hq hid hj he))
        exact (rank_append_lt ((h.ahead w hq).trans_le hleast) _ _).le
    · exact (ih hm).trans (rank_lt_append _ _).le

theorem onwards {e : EdgeId} (h : c.Heading q start id done f) (hon : Onwards start f g)
    (he : c.Passed q start g id e) :
    (∀ e' ∈ done ++ [e], c.Passed q start g id e') ∧
      ∀ {x i e}, g.Met start x → x ∉ g.queue → x ≠ id → c.item? x = some i →
        e ∈ i.parentEdges → c.Passed q start g x e := by
  constructor
  · intro e' hm
    rcases List.mem_append.mp hm with hm | hm
    · exact hon.passed (h.passed e' hm)
    · rw [List.mem_singleton.mp hm]
      exact he
  · intro x i e hm hq hne hi hmem
    have hmet : f.Met start x := (hon.new hm).resolve_right hq
    exact hon.passed (h.others hmet (fun hin => hq (hon.queue hin)) hne hi hmem)

theorem bound_next (h : c.Heading q start id done f) (e : EdgeId) (hm : f.Met start x) :
    c.standing f x < rank (c.steps (wayDown id f.reached) ++ [(done ++ [e]).length]) :=
  (h.bound hm).trans (rank_append_length_lt _ done e)

theorem meet {e : EdgeId} {edge : Edge} {j : Item} (h : c.Heading q start id done f)
    (hs : c.Sound) (hi : c.item? id = some i) (hsplit : i.parentEdges = done ++ e :: rest)
    (hlead : c.LeadsUp q id e edge j) (hnew : ¬f.Met start edge.container)
    (hexp : c.Explored q start (f.meet id edge.container))
    (hon : Onwards start f (f.meet id edge.container))
    (hpass : c.Passed q start (f.meet id edge.container) id e) :
    c.Heading q start id (done ++ [e]) (f.meet id edge.container) := by
  have hold : ∀ {x}, f.Met start x →
      c.standing (f.meet id edge.container) x = c.standing f x := by
    intro x hm
    refine standing_meet_of_ne c f id ?_
    rintro rfl
    exact hnew hm
  have htop : c.standing (f.meet id edge.container) edge.container =
      rank (c.steps (wayDown id f.reached) ++ [done.length]) := by
    rw [standing_meet_self, hs.idxOf_parents hi hsplit hlead.stored]
  have hway : wayDown id (f.meet id edge.container).reached = wayDown id f.reached := by
    refine wayDown_meet_of_ne f id ?_
    intro heq
    exact hnew (heq ▸ h.here)
  obtain ⟨hpassed, hothers⟩ := h.onwards hon hpass
  refine ⟨hexp, hon.met h.here, hpassed, hothers, ?least, ?line, ?ahead, ?bound⟩
  case least =>
    intro x l hm hw
    rcases Frontier.met_meet.mp hm with rfl | hm
    · rw [htop]
      exact h.first hs hi hsplit hw hnew
    · rw [hold hm]
      exact h.least hm hw
  case line =>
    refine List.pairwise_append.mpr ⟨h.line.imp_of_mem fun hx hy hlt => ?_,
      List.pairwise_singleton _ _, fun x hx y hy => ?_⟩
    · rwa [hold (h.queued hx), hold (h.queued hy)]
    · rw [List.mem_singleton.mp hy, htop, hold (h.queued hx)]
      exact h.bound (h.queued hx)
  case ahead =>
    intro x hx
    rw [hold h.here]
    rcases List.mem_append.mp hx with hx | hx
    · rw [hold (h.queued hx)]
      exact h.ahead x hx
    · rw [List.mem_singleton.mp hx, htop]
      exact rank_lt_append _ _
  case bound =>
    intro x hm
    rw [hway]
    rcases Frontier.met_meet.mp hm with rfl | hm
    · rw [htop]
      exact rank_append_length_lt _ done e
    · rw [hold hm]
      exact h.bound_next e hm

end Heading

/-- No way to what is looked for comes before the one to what was found. -/
def FindsFirst (c : Cabinet) (q : Quest) (start : ItemId) : Progress → Prop
  | .arrived up f => ∀ x j l, c.Way q start x l → c.item? x = some j → q.isTarget j = true →
    c.standing f up ≤ rank (c.steps l)
  | _ => True

/-- What holds when the search is done with some edges of an item. -/
def Headed (c : Cabinet) (q : Quest) (start id : ItemId) (done : List EdgeId) : Progress → Prop
  | .moving f => c.Heading q start id done f
  | p => c.FindsFirst q start p

theorem Deals.headed {e : EdgeId} {i : Item} {p : Progress} {done rest : List EdgeId}
    (hd : c.Deals q id e f p) (hs : c.Sound) (hi : c.item? id = some i)
    (hsplit : i.parentEdges = done ++ e :: rest) (h : c.Heading q start id done f) :
    c.Headed q start id (done ++ [e]) p := by
  have he : e ∈ i.parentEdges := hsplit ▸ List.mem_append_right _ List.mem_cons_self
  have htell := hd.tells hi he h.toExplored h.here
  have hnew : ∀ {up}, up ∈ f.unmet → ¬f.Met start up :=
    fun hm => (h.mem_unmet_iff.mp hm).2
  cases hd with
  | dangling => trivial
  | boundary =>
    obtain ⟨hexp, hon, hpass⟩ := htell
    obtain ⟨hpassed, hothers⟩ := h.onwards hon hpass
    exact ⟨hexp, hon.met h.here, hpassed, hothers, h.least, h.line, h.ahead, h.bound_next e⟩
  | known =>
    obtain ⟨hexp, hon, hpass⟩ := htell
    obtain ⟨hpassed, hothers⟩ := h.onwards hon hpass
    exact ⟨hexp, hon.met h.here, hpassed, hothers, h.least, h.line, h.ahead, h.bound_next e⟩
  | new hlead hm =>
    obtain ⟨hexp, hon, hpass⟩ := htell
    exact h.meet hs hi hsplit hlead (hnew hm) hexp hon hpass
  | @target edge j hlead hm =>
    intro x k l hw hk ht
    have hx : ¬f.Met start x := by
      intro hmet
      obtain ⟨k', hk', ht'⟩ := h.stored hmet
      cases hk.symm.trans hk'
      rw [ht] at ht'
      cases ht'
    show c.standing (f.meet id edge.container) edge.container ≤ _
    rw [standing_meet_self, hs.idxOf_parents hi hsplit hlead.stored]
    exact h.first hs hi hsplit hw hx

/-! ## The search -/

/-- **The edges of an item are dealt with in their order**, or one leads to what comes first. -/
theorem followEdges_headed {i : Item} (hs : c.Sound) (hi : c.item? id = some i)
    (h : c.Heading q start id [] f) :
    c.Headed q start id i.parentEdges (c.followEdges q id i.parentEdges f) := by
  refine followEdges_along (T := c.Headed q start id)
    (fun hsplit hf hd => hd.headed hs hi hsplit hf) ?_ (List.nil_append _).symm h
  intro done p hstop hp
  cases p with
  | moving g => exact absurd rfl (hstop g)
  | arrived | broken => exact hp

/-- **What was met stands in line**: each container is known by the first way to it, and the queue
is in the order of these ways. -/
structure Lined (c : Cabinet) (q : Quest) (start : ItemId) (f : Frontier) : Prop
    extends Explored c q start f where
  closed : c.Closed q start f
  least : ∀ {x l}, f.Met start x → c.Way q start x l → c.standing f x ≤ rank (c.steps l)
  line : f.queue.Pairwise fun x y => c.standing f x < c.standing f y
  /-- Everything that was met comes before what an item of the queue may lead to. -/
  bound : ∀ {x y}, f.Met start x → y ∈ f.queue →
    c.standing f x < rank (c.steps (wayDown y f.reached) ++ [0])

namespace Lined

theorem outset {i : Item} (hi : c.item? start = some i) (ht : q.isTarget i = false) :
    c.Lined q start (c.outset start) where
  toExplored := explored_outset hi ht
  closed := closed_outset
  least {x l} hm _ := by
    rw [met_outset.mp hm]
    exact rank_nil_le (c.steps l)
  line := List.pairwise_singleton _ _
  bound hm hy := by
    rw [met_outset.mp hm, List.mem_singleton.mp hy]
    exact rank_lt_append _ _

theorem heading {queue : List ItemId} (h : c.Lined q start f) (hq : f.queue = id :: queue) :
    c.Heading q start id [] { f with queue } := by
  have hline := h.line
  rw [hq, List.pairwise_cons] at hline
  obtain ⟨hexp, hmet⟩ := h.pop hq
  refine ⟨hexp, hmet, fun _ hm => absurd hm List.not_mem_nil, ?others, h.least,
    hline.2, hline.1, fun hm => h.bound hm (hq ▸ List.mem_cons_self)⟩
  case others =>
    intro x i e hm hx hne hi he
    refine h.closed hm (fun hin => ?_) hi e he
    rw [hq] at hin
    rcases List.mem_cons.mp hin with heq | hin
    · exact hne heq
    · exact hx hin

end Lined

/-- **When an item is done with, what was met stands in line.** -/
theorem Heading.lined {i : Item} (h : c.Heading q start id i.parentEdges f)
    (hi : c.item? id = some i) : c.Lined q start f where
  toExplored := h.toExplored
  closed := by
    intro x j hm hx hj e he
    by_cases hid : x = id
    · subst hid
      cases hi.symm.trans hj
      exact h.passed e he
    · exact h.others hm hx hid hj he
  least := h.least
  line := h.line
  bound hm hy := (h.bound hm).trans (rank_append_lt (h.ahead _ hy) _ _)

/-- **A search that finds something tells the way that comes first.** -/
theorem ascendFrom_first (hs : c.Sound) (h : c.Lined q start f) :
    c.FindsFirst q start (c.ascendFrom q f) := by
  refine ascendFrom_rel (I := c.Lined q start) (fun _ _ _ => trivial) ?_ ?_ h
  · intro f id queue h hq
    exact (h.stored (h.pop hq).2).imp fun _ => And.left
  · intro f id queue i h hq hi
    have hheaded := followEdges_headed hs hi (h.heading hq)
    cases hp : c.followEdges q id i.parentEdges { f with queue } with
    | moving g =>
      rw [hp] at hheaded
      exact Heading.lined hheaded hi
    | arrived up g =>
      rw [hp] at hheaded
      exact hheaded
    | broken => trivial

/-- **No way to what is looked for comes before the one that is told.** -/
theorem Sound.rank_toldPath_le (hs : c.Sound) {i j : Item} (hi : c.item? start = some i)
    {l : List ItemId} (hw : c.Way q start x l) (hj : c.item? x = some j)
    (ht : q.isTarget j = true) :
    rank (c.steps (c.toldPath q start).nodes) ≤ rank (c.steps l) := by
  rw [toldPath, shortestPath?]
  rcases hs.ascend?_cases (q := q) hs.acyclic hi with
      ⟨_, hasc⟩ | ⟨htar, ⟨up, f, hp, hasc⟩ | ⟨f, hp, hasc⟩⟩
  · rw [hasc]
    exact rank_nil_le (c.steps l)
  · have hfirst := ascendFrom_first hs (.outset hi htar)
    rw [hp] at hfirst
    rw [hasc]
    exact hfirst x j l hw hj ht
  · rw [hasc]
    exact rank_nil_le (c.steps l)

/-! ## Chains of edges -/

/-- A chain of edges that may be followed, from the start upwards: the items from the upper end down
to the start, and the place of each edge in the list of the item that it leaves, from the start on.
-/
inductive Ladder (c : Cabinet) (q : Quest) (start : ItemId) :
    ItemId → List ItemId → List Nat → Prop
  | start : Ladder c q start start [start] []
  | up {id : ItemId} {nodes : List ItemId} {places : List Nat} {i : Item} {k : Nat} {e : EdgeId}
      {edge : Edge} : Ladder c q start id nodes places → c.item? id = some i →
      i.parentEdges[k]? = some e → c.edge? e = some edge → q.isBoundary edge = false →
      Ladder c q start edge.container (edge.container :: nodes) (places ++ [k])

/-- A chain of edges that leads to what is looked for. -/
def Attains (c : Cabinet) (q : Quest) (start : ItemId) (nodes : List ItemId)
    (places : List Nat) : Prop :=
  ∃ x i, c.Ladder q start x nodes places ∧ c.item? x = some i ∧ q.isTarget i = true

namespace Sound

/-- **A chain of edges is a way, and the places of its edges are those of its steps.** -/
theorem ladder_iff (hs : c.Sound) {nodes : List ItemId} {places : List Nat} :
    c.Ladder q start x nodes places ↔ c.Way q start x nodes ∧ places = c.steps nodes := by
  constructor
  · intro h
    induction h with
    | start => exact ⟨.start, rfl⟩
    | @up id nodes places i k e edge _ hi hk he hb ih =>
      obtain ⟨hw, rfl⟩ := ih
      obtain ⟨edge', he', hid⟩ := hs.parent_stored hi (List.mem_of_getElem? hk)
      cases he.symm.trans he'
      refine ⟨hw.up (hs.climbs_iff_edge.mpr ⟨e, edge, he, rfl, hid, hb⟩), ?_⟩
      rw [steps_cons hw.head?, hs.idxOf_parents_of_getElem? hi hk he]
  · rintro ⟨hw, rfl⟩
    induction hw with
    | start => exact .start
    | up hw hup ih =>
      obtain ⟨i, e, edge, hi, hmem, he, _, hb, rfl, _⟩ := hup
      obtain ⟨k, hk⟩ := List.getElem?_of_mem hmem
      rw [steps_cons hw.head?, hs.idxOf_parents_of_getElem? hi hk he]
      exact ih.up hi hk he hb

end Sound

/-- **The places tell the chain.** -/
theorem Ladder.eq_of_places {nodes nodes' : List ItemId} {places places' : List Nat}
    (h : c.Ladder q start x nodes places) (h' : c.Ladder q start y nodes' places')
    (heq : places = places') : x = y ∧ nodes = nodes' := by
  induction h generalizing y nodes' places' with
  | start =>
    cases h' with
    | start => exact ⟨rfl, rfl⟩
    | up => simp at heq
  | up _ hi hk he _ ih =>
    cases h' with
    | start => simp at heq
    | up h' hi' hk' he' _ =>
      obtain ⟨hplaces, hlast⟩ := List.append_inj' heq rfl
      obtain ⟨rfl, rfl⟩ := ih h' hplaces
      -- the same place in the list of the same item is the same edge
      cases hi.symm.trans hi'
      cases hlast
      cases hk.symm.trans hk'
      cases he.symm.trans he'
      exact ⟨rfl, rfl⟩

theorem Ladder.start_stored {nodes : List ItemId} {places : List Nat}
    (h : c.Ladder q start x nodes places) (hx : ∃ i, c.item? x = some i) :
    ∃ i, c.item? start = some i := by
  induction h with
  | start => exact hx
  | up _ hi _ _ _ ih => exact ih ⟨_, hi⟩

namespace Sound

theorem isEmpty_toldPath_iff (hs : c.Sound) :
    (c.toldPath q start).isEmpty = true ↔ ∀ nodes places, ¬c.Attains q start nodes places := by
  cases hi : c.item? start with
  | none =>
    rw [toldPath, shortestPath?, ascend?, hi]
    refine iff_of_true rfl ?_
    rintro nodes places ⟨x, j, hl, hj, _⟩
    obtain ⟨i, hi'⟩ := hl.start_stored ⟨j, hj⟩
    cases hi.symm.trans hi'
  | some i =>
    obtain ⟨p, hp, hshort⟩ := hs.shortestPath?_tells (q := q) hs.acyclic ⟨i, hi⟩
    rw [toldPath, hp, Option.getD_some, hshort.isEmpty_iff]
    constructor
    · rintro hnone nodes places ⟨x, j, hl, hj, ht⟩
      rw [hnone x j nodes (hs.ladder_iff.mp hl).1 hj] at ht
      cases ht
    · intro hnone x j l hw hj
      by_contra ht
      exact hnone l (c.steps l)
        ⟨x, j, hs.ladder_iff.mpr ⟨hw, rfl⟩, hj, Bool.of_not_eq_false ht⟩

/-- **A path that is told is a chain of edges to what is looked for, and all others come after
it.** -/
theorem attains_toldPath (hs : c.Sound) (hne : (c.toldPath q start).isEmpty = false) :
    ∃ places, c.Attains q start (c.toldPath q start).nodes places ∧
      ∀ nodes' places', c.Attains q start nodes' places' →
        nodes' = (c.toldPath q start).nodes ∧ places' = places ∨ rank places < rank places' := by
  obtain ⟨i, hi⟩ : ∃ i, c.item? start = some i := by
    by_contra hnone
    rw [toldPath, shortestPath?, ascend?, Option.eq_none_iff_forall_ne_some.mpr
      fun i hi => hnone ⟨i, hi⟩] at hne
    cases hne
  obtain ⟨p, hp, hshort⟩ := hs.shortestPath?_tells (q := q) hs.acyclic ⟨i, hi⟩
  have htold : c.toldPath q start = p := by rw [toldPath, hp, Option.getD_some]
  obtain ⟨x, j, hw, hj, ht⟩ := hshort.way (htold ▸ hne)
  rw [← htold] at hw
  have hladder := hs.ladder_iff.mpr ⟨hw, rfl⟩
  refine ⟨_, ⟨x, j, hladder, hj, ht⟩, ?_⟩
  rintro nodes' places' ⟨x', j', hl', hj', ht'⟩
  obtain ⟨hw', rfl⟩ := hs.ladder_iff.mp hl'
  rcases (hs.rank_toldPath_le hi hw' hj' ht').eq_or_lt with heq | hlt
  · have hplaces := rank_injective heq
    exact .inl ⟨(hladder.eq_of_places hl' hplaces).2.symm, hplaces.symm⟩
  · exact .inr hlt

end Sound

end Cabinet

/-! ## Runs -/

namespace Request

variable {settings : Settings} {epoch : Epoch} {c : Cabinet} {l : List Request}

/-- **Of several shortest ways the first one is told**, in every cabinet that a run from an empty
one comes to, from whatever item a search begins, whatever it looks for and wherever it must not go.
The path is empty exactly if no chain of edges leads from the start up to what is looked for.
Otherwise it is such a chain, and every other one is longer, or as long and of a larger place at the
first edge that differs, from the start upwards. -/
theorem toldPath_first (hl : AllAllowed Fresh l (.empty settings epoch))
    (hn : linksAll l (.empty settings epoch) < 2 ^ 64 - 1)
    (hc : afterAll l (.empty settings epoch) = c) (q : Quest) (start : ItemId) :
    ((c.toldPath q start).isEmpty = true ↔ ∀ nodes places, ¬c.Attains q start nodes places) ∧
    ((c.toldPath q start).isEmpty = false →
      ∃ places, c.Attains q start (c.toldPath q start).nodes places ∧
        ∀ nodes' places', c.Attains q start nodes' places' →
          (nodes' = (c.toldPath q start).nodes ∧ places' = places) ∨
          places.length < places'.length ∨
          (places.length = places'.length ∧ places < places')) := by
  have hs : c.Sound := hc ▸ sound_afterAll hl hn
  simp only [← rank_lt_iff]
  exact ⟨hs.isEmpty_toldPath_iff, hs.attains_toldPath⟩

/-- Two folders in one folder, and a document in the later of them first. -/
def forked : List Request :=
  [.insert (.bare 1 (.container .folder) []), .insert (.bare 2 (.container .folder) []),
    .insert (.bare 3 (.container .folder) []), .insert (.bare 4 .document []),
    .add (.ofNat 1) (.ofNat 2) (.bare .null), .add (.ofNat 1) (.ofNat 3) (.bare .null),
    .add (.ofNat 3) (.ofNat 4) (.bare .null), .add (.ofNat 2) (.ofNat 4) (.bare .null)].map operation

/-- Two chains lead from the document to the highest folder, and they are as long as each other.  The
one through the folder into which the document was put first is told. -/
theorem toldPath_first_forked : ∃ c q path, afterAll forked (.empty .standard 0) = c ∧
    q = Quest.forItem (.ofNat 1) ∧ c.toldPath q (.ofNat 4) = path ∧
    path = ⟨[.ofNat 1, .ofNat 3, .ofNat 4]⟩ ∧
    c.Attains q (.ofNat 4) [.ofNat 1, .ofNat 2, .ofNat 4] [1, 0] ∧
    ∃ places, c.Attains q (.ofNat 4) path.nodes places ∧ places.length ≤ 2 ∧
      ∀ nodes' places', c.Attains q (.ofNat 4) nodes' places' →
        (nodes' = path.nodes ∧ places' = places) ∨ places.length < places'.length ∨
        (places.length = places'.length ∧ places < places') := by
  have hl : AllAllowed Fresh forked (.empty .standard 0) :=
    ⟨rfl, rfl, rfl, rfl, trivial, trivial, trivial, trivial, trivial⟩
  have hn : linksAll forked (.empty .standard 0) ≤ 8 := linksAll_le_length ..
  have hpath : (afterAll forked (.empty .standard 0)).toldPath (.forItem (.ofNat 1)) (.ofNat 4) =
      ⟨[.ofNat 1, .ofNat 3, .ofNat 4]⟩ := by cbv
  obtain ⟨top, htop, hid⟩ : ∃ i, (afterAll forked (.empty .standard 0)).item? (.ofNat 1) =
      some i ∧ i.id = .ofNat 1 := Option.map_eq_some_iff.mp (by cbv)
  obtain ⟨folder, hfolder, hlist⟩ : ∃ i, (afterAll forked (.empty .standard 0)).item? (.ofNat 2) =
      some i ∧ i.parentEdges = [⟨1⟩] := Option.map_eq_some_iff.mp (by cbv)
  obtain ⟨doc, hdoc, hlist'⟩ : ∃ i, (afterAll forked (.empty .standard 0)).item? (.ofNat 4) =
      some i ∧ i.parentEdges = [⟨3⟩, ⟨4⟩] := Option.map_eq_some_iff.mp (by cbv)
  have hupper : (afterAll forked (.empty .standard 0)).edge? ⟨1⟩ =
      some (.make ⟨1⟩ ⟨.ofNat 2, .ofNat 1⟩ .anonymous .start) := by cbv
  have hlower : (afterAll forked (.empty .standard 0)).edge? ⟨4⟩ =
      some (.make ⟨4⟩ ⟨.ofNat 4, .ofNat 2⟩ .anonymous .start) := by cbv
  have hother : (afterAll forked (.empty .standard 0)).Attains (.forItem (.ofNat 1)) (.ofNat 4)
      [.ofNat 1, .ofNat 2, .ofNat 4] [1, 0] := by
    have hstep := Ladder.start.up (q := .forItem (.ofNat 1)) (k := 1) hdoc
      (by rw [hlist']; rfl) hlower rfl
    exact ⟨_, top, hstep.up (k := 0) hfolder (by rw [hlist]; rfl) hupper rfl, htop,
      decide_eq_true hid⟩
  obtain ⟨_, htold⟩ := toldPath_first hl (by omega) rfl (.forItem (.ofNat 1)) (.ofNat 4)
  obtain ⟨places, hattains, hfirst⟩ := htold (by rw [hpath]; rfl)
  refine ⟨_, _, _, rfl, rfl, rfl, hpath, hother, places, hattains, ?_, hfirst⟩
  rcases hfirst _ _ hother with ⟨_, rfl⟩ | hlt | ⟨heq, _⟩
  · exact le_rfl
  · exact hlt.le
  · exact heq.le

end Request

end Filing
