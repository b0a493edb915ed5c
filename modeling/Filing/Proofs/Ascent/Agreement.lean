import Filing.Proofs.Ascent.Answers
import Filing.Proofs.Requests

/-!
# The check for cycles and the search upwards agree

Two searches look at what is above an item: a depth-first one before a new membership, and a
breadth-first one for paths and ancestors.

* `Ranked`: a search meets every container once, and **never one after another that is higher up**.
  Every step keeps this, as a container that is new is in the next layer (`Deals.ranked`).
* `Layered.nearest_of_queue`: when nothing is left to do, the way down from each container that was
  met is a shortest one.
* `Coherent.ancestors?_tells`: **the ancestors of an item are told once each, nearest first**.
* `Request.searches_agree`: after every run the two searches see the same, and both come to an
  answer.
-/

namespace Filing

open Relation Cabinet

namespace Cabinet

variable {c : Cabinet} {q : Quest} {start id up x : ItemId} {f g : Frontier} {n : Nat}

/-! ## The order in which containers are met -/

/-- Containers are met once each, and none after one that is higher up; the latest is first. -/
structure Ranked (start : ItemId) (f : Frontier) : Prop where
  once : (f.reached.map (·.1)).Nodup
  apart : start ∉ f.reached.map (·.1)
  ordered : (f.reached.map (·.1)).Pairwise fun x y => f.height y ≤ f.height x

theorem Ranked.outset : Ranked start (c.outset start) := ⟨.nil, List.not_mem_nil, .nil⟩

/-- **A container that is new** is met last, and nothing that was met is higher up. -/
theorem Ranked.meet (h : Ranked start f) (hat : c.Dealing q start n id f)
    (hnew : ¬f.Met start up) : Ranked start (f.meet id up) := by
  have hsame : ∀ {x}, x ∈ f.reached.map (·.1) → (f.meet id up).height x = f.height x := fun hm =>
    height_meet_of_ne f id fun heq => hnew (heq ▸ .inr hm)
  refine ⟨List.nodup_cons.mpr ⟨fun hm => hnew (.inr hm), h.once⟩, fun hm => ?_,
    List.pairwise_cons.mpr ⟨fun y hy => ?_, h.ordered.imp_of_mem fun hx hy hle => ?_⟩⟩
  · rcases List.mem_cons.mp hm with heq | hm
    · exact hnew (.inl heq.symm)
    · exact h.apart hm
  · show (f.meet id up).height y ≤ (f.meet id up).height up
    rw [hsame hy, height_meet_self, hat.height]
    exact hat.layered.met (.inr hy)
  · rwa [hsame hx, hsame hy]

/-- **An edge keeps the order.** -/
theorem Deals.ranked {e : EdgeId} {g : Frontier} (hd : c.Deals q id e f (.moving g))
    (hat : c.Dealing q start n id f) (h : Ranked start f) : Ranked start g := by
  cases hd with
  | boundary => exact h
  | known => exact ⟨h.once, h.apart, h.ordered⟩
  | new _ hm => exact h.meet hat (hat.explored.mem_unmet_iff.mp hm).2

/-- What holds of a search that goes on. -/
def Goes (goes : Frontier → Prop) : Progress → Prop
  | .moving f => goes f
  | _ => True

theorem followEdges_ranked {i : Item} (hi : c.item? id = some i)
    (hat : c.Dealing q start n id f) (h : Ranked start f) :
    Goes (fun g => c.Dealing q start n id g ∧ Ranked start g)
      (c.followEdges q id i.parentEdges f) := by
  refine followEdges_rel (T := Goes _) (fun e he g p hg hd => ?_) ⟨hat, h⟩
  cases p with
  | moving g' => exact ⟨hd.lifts hi he hg.1, hd.ranked hg.1 hg.2⟩
  | arrived | broken => trivial

/-- **A search that ends with nothing found has met everything in order.** -/
theorem ascendFrom_ranked (he : c.Explored q start f) (hc : c.Closed q start f)
    (h : Layered c q start n f) (hr : Ranked start f) :
    Goes (fun g => c.Explored q start g ∧ c.Closed q start g ∧ g.queue = [] ∧
      (∃ n, Layered c q start n g) ∧ Ranked start g) (c.ascendFrom q f) := by
  refine ascendFrom_rel
    (I := fun g => c.Explored q start g ∧ c.Closed q start g ∧ (∃ n, Layered c q start n g) ∧
      Ranked start g) ?_ ?_ ?_ ⟨he, hc, ⟨n, h⟩, hr⟩
  · exact fun g ⟨he, hc, hl, hr⟩ hq => ⟨he, hc, hq, hl, hr⟩
  · intro g id queue ⟨he, _⟩ hq
    exact (he.stored (he.pop hq).2).imp fun _ => And.left
  · intro g id queue i ⟨he, hc, ⟨n, h⟩, hr⟩ hq hi
    have hat := h.dealing he hq
    have htell := followEdges_tells hi (fun _ he => he) hat.explored hat.met
    have hranked := followEdges_ranked hi hat ⟨hr.once, hr.apart, hr.ordered⟩
    cases hp : c.followEdges q id i.parentEdges { g with queue } with
    | moving g' =>
      rw [hp] at htell hranked
      obtain ⟨he', hon, hpassed⟩ := htell
      exact ⟨he', hc.pop hq hi hon hpassed, ⟨_, hranked.1.layered⟩, hranked.2⟩
    | arrived | broken => trivial

/-! ## Heights and paths -/

theorem Layered.of_queue {m : Nat} (h : Layered c q start n f) (hq : f.queue = []) (hm : n ≤ m) :
    Layered c q start m f where
  base := h.base
  way := h.way
  sorted := h.sorted
  queued hx := by
    rw [hq] at hx
    cases hx
  met hx := (h.met hx).trans (Nat.succ_le_succ hm)
  left hx hn := (h.left hx hn).trans hm
  followed := h.followed

/-- **When nothing is left to do, the way down from what was met is a shortest one.** -/
theorem Layered.nearest_of_queue (h : Layered c q start n f) (hc : c.Closed q start f)
    (hq : f.queue = []) {l : List ItemId} (hw : c.Way q start x l) : f.height x ≤ l.length :=
  ((h.of_queue hq (Nat.le_max_left n l.length)).met_of_way hc hw (Nat.le_max_right n l.length)).2

theorem Way.of_boundary {q' : Quest} {l : List ItemId} (h : c.Way q start x l)
    (hq : q'.isBoundary = q.isBoundary) : c.Way q' start x l := by
  induction h with
  | start => exact .start
  | up _ hup ih =>
    rw [Climbs, ← hq] at hup
    exact ih.up hup

namespace Sound

/-- **The path to an item is as long as a shortest way to it.** -/
theorem length_toldPath (hs : c.Sound) (hx : ∃ i, c.item? start = some i) {a : ItemId}
    {l : List ItemId} (hw : c.Way (.forItem a) start a l)
    (hl : ∀ l', c.Way (.forItem a) start a l' → l.length ≤ l'.length) :
    (c.toldPath (.forItem a) start).length = l.length := by
  obtain ⟨p, hp, hshort⟩ := hs.shortestPath?_tells (q := .forItem a) hs.acyclic hx
  obtain ⟨i, hi⟩ := hw.stored hx
  have ht : (Quest.forItem a).isTarget i = true := decide_eq_true (hs.item_id hi)
  have hne : p.isEmpty = false := by
    by_contra hempty
    have hnone := hshort.isEmpty_iff.mp (Bool.of_not_eq_false hempty) a i l hw hi
    rw [ht] at hnone
    cases hnone
  obtain ⟨x, j, hway, hj, htx⟩ := hshort.way hne
  have hxa : x = a := (hs.item_id hj).symm.trans (of_decide_eq_true htx)
  subst hxa
  rw [toldPath, hp]
  exact Nat.le_antisymm (hshort.nearest hne hw hi ht) (hl _ hway)

/-- **The ancestors of an item are told once each, nearest first**, and nothing else is. -/
theorem ancestors?_tells (hs : c.Sound) (hx : ∃ i, c.item? start = some i) :
    ∃ l, c.ancestors? start = some l ∧ l.Nodup ∧
      (∀ a, a ∈ l ↔ a ≠ start ∧ ReflTransGen c.Holds a start) ∧
      l.Pairwise fun a b => (c.toldPath (.forItem a) start).length ≤
        (c.toldPath (.forItem b) start).length := by
  obtain ⟨i, hi⟩ := hx
  rw [ancestors?]
  rcases hs.ascend?_cases (q := .everything) hs.acyclic hi with
      ⟨ht, _⟩ | ⟨ht, ⟨up, f, hp, _⟩ | ⟨f, hp, hasc⟩⟩
  · cases ht
  · have htell := ascendFrom_tells (explored_outset hi ht) (closed_outset (c := c))
    rw [hp] at htell
    obtain ⟨_, ⟨_, _, htar⟩, _⟩ := htell
    cases htar
  have hranked := ascendFrom_ranked (explored_outset hi ht) (closed_outset (c := c)) .outset
    .outset
  rw [hp] at hranked
  obtain ⟨he, hc, hq, ⟨n, hlay⟩, hr⟩ := hranked
  have hheight : ∀ a, f.Met start a → (c.toldPath (.forItem a) start).length = f.height a :=
    fun a hm => hs.length_toldPath ⟨i, hi⟩ ((hlay.way hm).of_boundary rfl) fun _ hw =>
      hlay.nearest_of_queue hc hq (hw.of_boundary rfl)
  have hreached : ∀ a, f.Met start a ↔ ReflTransGen c.Holds a start := by
    intro a
    have hclimbs : c.Climbs .everything = Function.swap c.Holds := by
      funext x y
      exact propext (hs.climbs_iff fun _ => rfl)
    rw [← reflTransGen_swap, ← hclimbs]
    exact ⟨he.reachable, hc.met_of_reachable hq⟩
  rw [hasc, Option.map_some]
  refine ⟨_, rfl, List.nodup_reverse.mpr hr.once, fun a => ?_, ?_⟩
  · rw [List.mem_reverse, ← hreached]
    constructor
    · exact fun hm => ⟨fun heq => hr.apart (heq ▸ hm), .inr hm⟩
    · exact fun ⟨hne, hm⟩ => hm.resolve_left hne
  · refine List.pairwise_reverse.mpr (hr.ordered.imp_of_mem fun hx hy hle => ?_)
    rwa [hheight _ (.inr hx), hheight _ (.inr hy)]

theorem reaches_iff_holds (hs : c.Sound) (hx : ∃ i, c.item? start = some i) {a : ItemId} :
    c.reaches start a = true ↔ ReflTransGen c.Holds a start := by
  rw [hs.reaches_iff hs.acyclic hx]
  constructor
  · rintro ⟨id, i, hr, hi, rfl⟩
    exact hs.item_id hi ▸ hr
  · intro hr
    obtain ⟨i, hi⟩ : ∃ i, c.item? a = some i := by
      rcases ReflTransGen.cases_head hr with rfl | ⟨_, hh, _⟩
      · exact hx
      · exact hs.container_stored hh
    exact ⟨a, i, hr, hi, hs.item_id hi⟩

/-- **The verdict of the check for cycles** is what the search upwards sees. -/
theorem checkCycle_eq (hs : c.Sound) {parent : ItemId} (hp : ∃ i, c.item? parent = some i)
    (child : ItemId) :
    c.checkCycle parent child = if c.reaches parent child then .wouldCycle else .acyclic := by
  split
  · next hr =>
    exact checkCycle_eq_wouldCycle hs.toCoherent hs.acyclic hp ((hs.reaches_iff_holds hp).mp hr)
  · next hr =>
    exact (checkCycle_eq_acyclic_iff hs.toCoherent hs.acyclic).mpr
      ⟨hp, fun hup => hr ((hs.reaches_iff_holds hp).mpr hup)⟩

theorem ascend?_eq_none_iff (hs : c.Sound) : c.ascend? q start = none ↔ c.item? start = none := by
  constructor
  · intro hnone
    by_contra hi
    obtain ⟨a, ha, _⟩ := hs.ascend?_tells (q := q) hs.acyclic (Option.ne_none_iff_exists'.mp hi)
    exact Option.some_ne_none a (ha.symm.trans hnone)
  · intro hi
    rw [ascend?, hi]
    rfl

end Sound

end Cabinet

/-! ## Runs -/

namespace Request

variable {settings : Settings} {epoch : Epoch} {c : Cabinet} {l : List Request}

/-- **The check for cycles and the search upwards agree** in every cabinet that a run from an empty
one comes to.  An item can become a member of a stored container exactly if it is not reached from
there.  The ancestors of a stored item are the other items that are reached from it, once each and
nearest first.  No search from a stored item comes upon a cycle, or upon a reference that leads
nowhere. -/
theorem searches_agree (hl : AllAllowed Fresh l (.empty settings epoch))
    (hn : linksAll l (.empty settings epoch) < 2 ^ 64 - 1)
    (hc : afterAll l (.empty settings epoch) = c) :
    (∀ parent child, (∃ i, c.item? parent = some i) → c.checkCycle parent child =
      if c.reaches parent child then .wouldCycle else .acyclic) ∧
    (∀ x, (∃ i, c.item? x = some i) → ∃ above, c.ancestors? x = some above ∧ above.Nodup ∧
      (∀ a, a ∈ above ↔ a ≠ x ∧ c.reaches x a = true) ∧
      above.Pairwise fun a b =>
        (c.toldPath (.forItem a) x).length ≤ (c.toldPath (.forItem b) x).length) ∧
    ∀ q x, c.ascend? q x = none ↔ c.item? x = none := by
  have hs : c.Sound := hc ▸ sound_afterAll hl hn
  refine ⟨fun parent child hp => hs.checkCycle_eq hp child, fun x hx => ?_,
    fun q x => hs.ascend?_eq_none_iff⟩
  simp only [hs.reaches_iff_holds hx]
  exact hs.ancestors?_tells hx

/-- Three folders in one another, and a document in the lowest and then in the highest. -/
def nested : List Request :=
  [.insert (.bare 1 (.container .folder) []), .insert (.bare 2 (.container .folder) []),
    .insert (.bare 3 (.container .folder) []), .insert (.bare 4 .document []),
    .add (.ofNat 1) (.ofNat 2) (.bare .null), .add (.ofNat 2) (.ofNat 3) (.bare .null),
    .add (.ofNat 3) (.ofNat 4) (.bare .null), .add (.ofNat 1) (.ofNat 4) (.bare .null)].map operation

/-- The highest folder cannot become a member of the lowest, and the document can.  From the
document the highest folder is as near as the lowest, and the middle one is farther. -/
theorem searches_agree_nested : ∃ c, afterAll nested (.empty .standard 0) = c ∧
    c.checkCycle (.ofNat 3) (.ofNat 1) = .wouldCycle ∧
    c.checkCycle (.ofNat 3) (.ofNat 4) = .acyclic ∧
    (∃ above, c.ancestors? (.ofNat 4) = some above ∧ above = [.ofNat 3, .ofNat 1, .ofNat 2] ∧
      above.Nodup ∧ above.Pairwise fun a b =>
        (c.toldPath (.forItem a) (.ofNat 4)).length ≤
          (c.toldPath (.forItem b) (.ofNat 4)).length) ∧
    c.ascend? .everything (.ofNat 4) ≠ none := by
  have hl : AllAllowed Fresh nested (.empty .standard 0) :=
    ⟨rfl, rfl, rfl, rfl, trivial, trivial, trivial, trivial, trivial⟩
  have hn : linksAll nested (.empty .standard 0) ≤ 8 := linksAll_le_length ..
  obtain ⟨hcheck, habove, hknown⟩ := searches_agree hl (by omega) rfl
  have hthird : ∃ i, (afterAll nested (.empty .standard 0)).item? (.ofNat 3) = some i :=
    Option.isSome_iff_exists.mp (by cbv)
  have hfourth : ∃ i, (afterAll nested (.empty .standard 0)).item? (.ofNat 4) = some i :=
    Option.isSome_iff_exists.mp (by cbv)
  obtain ⟨above, htold, honce, _, hordered⟩ := habove (.ofNat 4) hfourth
  have hlist : (afterAll nested (.empty .standard 0)).ancestors? (.ofNat 4) =
      some [.ofNat 3, .ofNat 1, .ofNat 2] := by cbv
  refine ⟨_, rfl, ?_, ?_, ⟨above, htold, ?_, honce, hordered⟩, ?_⟩
  · rw [hcheck _ _ hthird, if_pos (by cbv)]
  · rw [hcheck _ _ hthird, if_neg (by rw [Bool.not_eq_true]; cbv)]
  · exact Option.some.inj (htold.symm.trans hlist)
  · rw [ne_eq, hknown]
    exact Option.ne_none_iff_exists'.mpr hfourth

end Request

end Filing
