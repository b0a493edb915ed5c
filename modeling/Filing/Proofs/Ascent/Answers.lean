import Filing.Proofs.Ascent.Resolution
import Filing.Proofs.Ascent.Shortest

/-!
# The answers of a search where the stored graph is not in order

A search has three answers: a path, no path, and that nothing is known.  Nothing is assumed of the
cabinet here, and none of the answers is given for another (`toldPath_tells`).

* **A path that is told is a shortest way** to what is looked for (`Way.answerTells`,
  `Way.isChain`).
* **Where no path is told, there is none**: nothing that is looked for can be reached, and all that
  can be reached resolves and lies on no cycle (`Closed.resolves`, `Closed.not_loop`).
* Where nothing is known, something is wrong indeed: the start is not stored, or a cycle or an item
  that does not resolve can be reached.
-/

namespace Filing.Cabinet

open Relation

variable {c : Cabinet} {q : Quest} {start x y : ItemId} {f : Frontier} {l : List ItemId}

/-- The path that a search tells; it is empty also where nothing is known. -/
def toldPath (c : Cabinet) (q : Quest) (start : ItemId) : ItemPath :=
  (c.shortestPath? q start).getD .empty

/-! ## Ways as chains -/

theorem Way.getLast? (h : c.Way q start x l) : l.getLast? = some start := by
  induction h with
  | start => rfl
  | up hw _ ih =>
    rw [List.getLast?_cons, ih]
    rfl

theorem Way.head? (h : c.Way q start x l) : l.head? = some x := by
  cases h <;> rfl

theorem Way.isChain (h : c.Way q start x l) : l.IsChain fun up low => c.Climbs q low up := by
  induction h with
  | start => exact .singleton _
  | up hw hup ih =>
    obtain ⟨below, rfl⟩ := List.head?_eq_some_iff.mp hw.head?
    exact .cons_cons hup ih

/-! ## What was explored -/

theorem Closed.mem_followed (hc : c.Closed q start f) (hq : f.queue = [])
    (hr : ReflTransGen (c.Climbs q) start x) (hup : c.Climbs q x y) : (x, y) ∈ f.followed := by
  obtain ⟨i, e, edge, hi, he, hs, _, hb, rfl, _⟩ := hup
  obtain ⟨edge', hs', _, hp⟩ := hc (hc.met_of_reachable hq hr) (by simp [hq]) hi e he
  cases hs.symm.trans hs'
  exact (hp hb).2

/-- **What is reachable resolves.** -/
theorem Closed.resolves (hc : c.Closed q start f) (he : c.Explored q start f) (hq : f.queue = [])
    (hr : ReflTransGen (c.Climbs q) start x) : c.Resolves q x := by
  have hm := hc.met_of_reachable hq hr
  obtain ⟨i, hi, _⟩ := he.stored hm
  refine ⟨i, hi, fun e hmem => ?_⟩
  obtain ⟨edge, hs, hid, hp⟩ := hc hm (by simp [hq]) hi e hmem
  exact ⟨edge, hs, hid, fun hb => (he.stored (hp hb).1).imp fun _ => And.left⟩

/-- **What is reachable lies on no cycle** if none was found in what was followed. -/
theorem Closed.not_loop (hc : c.Closed q start f) (hq : f.queue = [])
    (hf : Graph.hasCycleFrom start f.followed = false)
    (hr : ReflTransGen (c.Climbs q) start x) : ¬TransGen (c.Climbs q) x x := by
  intro hx
  have hway : ∀ {y}, ReflTransGen (c.Climbs q) start y →
      ReflTransGen (fun a b => (a, b) ∈ f.followed) start y := by
    intro y hy
    induction hy with
    | refl => exact .refl
    | tail hz hup ih => exact ih.tail (hc.mem_followed hq hz hup)
  have hloop : ∀ {y}, TransGen (c.Climbs q) x y →
      TransGen (fun a b => (a, b) ∈ f.followed) x y := by
    intro y hy
    induction hy with
    | single hup => exact .single (hc.mem_followed hq hr hup)
    | tail hz hup ih => exact ih.tail (hc.mem_followed hq (hr.trans hz.to_reflTransGen) hup)
  rw [Graph.hasCycleFrom_iff.mpr ⟨x, hway hr, hloop hx⟩] at hf
  cases hf

theorem loop_of_followed (hf : Graph.hasCycleFrom start f.followed = true)
    (hclimbs : ∀ {x y}, (x, y) ∈ f.followed → c.Climbs q x y) :
    ∃ x, ReflTransGen (c.Climbs q) start x ∧ TransGen (c.Climbs q) x x := by
  obtain ⟨x, hr, hx⟩ := Graph.hasCycleFrom_iff.mp hf
  exact ⟨x, ReflTransGen.mono (fun _ _ => hclimbs) start x hr,
    TransGen.mono (fun _ _ => hclimbs) x x hx⟩

theorem Dangling.not_resolves {e : EdgeId} {i : Item} (h : c.Dangling q x e)
    (hi : c.item? x = some i) (he : e ∈ i.parentEdges) : ¬c.Resolves q x := by
  rintro ⟨i', hi', hall⟩
  cases hi.symm.trans hi'
  obtain ⟨edge, hs, hid, hj⟩ := hall e he
  obtain ⟨hb, hnone⟩ := h edge hs hid
  obtain ⟨j, hj⟩ := hj hb
  cases hnone.symm.trans hj

/-! ## The answers -/

/-- From the start a cycle can be reached, or an item that does not resolve. -/
def Disorder (c : Cabinet) (q : Quest) (start : ItemId) : Prop :=
  ∃ x, ReflTransGen (c.Climbs q) start x ∧ (TransGen (c.Climbs q) x x ∨ ¬c.Resolves q x)

/-- What an answer tells. -/
def AnswerTells (c : Cabinet) (q : Quest) (start : ItemId) : Option ItemPath → Prop
  | none => c.item? start = none ∨ c.Disorder q start
  | some ⟨[]⟩ => ∀ x, ReflTransGen (c.Climbs q) start x → c.Resolves q x ∧
      ¬TransGen (c.Climbs q) x x ∧ ∀ i, c.item? x = some i → q.isTarget i = false
  | some ⟨l⟩ => ∃ x i, c.Way q start x l ∧ c.item? x = some i ∧ q.isTarget i = true ∧
      c.Nearest q start l

theorem Way.answerTells {i : Item} (h : c.Way q start x l) (hi : c.item? x = some i)
    (ht : q.isTarget i = true) (hn : c.Nearest q start l) :
    c.AnswerTells q start (some ⟨l⟩) := by
  cases l with
  | nil => exact absurd rfl h.ne_nil
  | cons => exact ⟨x, i, h, hi, ht, hn⟩

theorem answerTells_trusted {p : Option ItemPath}
    (hclimbs : ∀ {x y}, (x, y) ∈ f.followed → c.Climbs q x y)
    (hp : Graph.hasCycleFrom start f.followed = false → c.AnswerTells q start p) :
    c.AnswerTells q start (if Graph.hasCycleFrom start f.followed then none else p) := by
  cases hf : Graph.hasCycleFrom start f.followed with
  | false => exact hp hf
  | true =>
    obtain ⟨x, hr, hx⟩ := loop_of_followed hf hclimbs
    exact .inr ⟨x, hr, .inl hx⟩

theorem shortestPath?_of_not_target {i : Item} (hi : c.item? start = some i)
    (ht : q.isTarget i = false) :
    c.shortestPath? q start =
      match c.ascendFrom q (c.outset start) with
      | .broken => none
      | .arrived up f =>
        if Graph.hasCycleFrom start f.followed then none else some ⟨wayDown up f.reached⟩
      | .moving f => if Graph.hasCycleFrom start f.followed then none else some .empty := by
  rw [shortestPath?, ascend?, hi]
  simp only [Option.bind_eq_bind, Option.bind_some, ht, Bool.false_eq_true, if_false]
  rw [← outset]
  cases c.ascendFrom q (c.outset start) with
  | broken => rfl
  | arrived | moving =>
    dsimp only
    rw [apply_ite (Option.map _)]
    rfl

/-- **Every answer of a search is right.** -/
theorem shortestPath?_answers (c : Cabinet) (q : Quest) (start : ItemId) :
    c.AnswerTells q start (c.shortestPath? q start) := by
  cases hi : c.item? start with
  | none =>
    rw [shortestPath?, ascend?, hi]
    exact .inl hi
  | some i =>
    cases ht : q.isTarget i with
    | true =>
      rw [shortestPath?, ascend?, hi]
      simp only [Option.bind_eq_bind, Option.bind_some, ht, if_true]
      exact Way.answerTells .start hi ht fun hw _ _ => List.length_pos_iff.mpr hw.ne_nil
    | false =>
      have htell := ascendFrom_tells (explored_outset hi ht) (closed_outset (c := c) (q := q))
      have hnear := ascendFrom_nearest (explored_outset hi ht) (closed_outset (q := q)) .outset
      rw [shortestPath?_of_not_target hi ht]
      cases hp : c.ascendFrom q (c.outset start) with
      | broken =>
        rw [hp] at htell
        obtain ⟨x, j, e, hr, hj, he, hd⟩ := htell
        exact .inr ⟨x, hr, .inr (hd.not_resolves hj he)⟩
      | arrived up f =>
        rw [hp] at htell hnear
        obtain ⟨_, ⟨j, hj, htar⟩, hclimbs⟩ := htell
        exact answerTells_trusted hclimbs fun _ => hnear.1.answerTells hj htar hnear.2
      | moving f =>
        rw [hp] at htell
        obtain ⟨he, hc, hq, _⟩ := htell
        refine answerTells_trusted he.climbs fun hf x hr => ⟨hc.resolves he hq hr,
          hc.not_loop hq hf hr, fun j hj => ?_⟩
        obtain ⟨j', hj', htar⟩ := he.stored (hc.met_of_reachable hq hr)
        cases hj.symm.trans hj'
        exact htar

/-- **A search tells what it knows, and never one thing for another**, in every cabinet.  A path
that is told leads down from something that is looked for to the start, each item climbed to from
the next, and nothing that is looked for is nearer.  An empty path without a warning says that
nothing that is looked for can be reached, and that all that can be reached is in order.  With the
warning the path is empty, and the start is not stored or something above it is not in order. -/
theorem toldPath_tells (c : Cabinet) (q : Quest) (start : ItemId) :
    ((c.toldPath q start).isEmpty = false →
      (c.toldPath q start).start? = some start ∧
      (∃ top i, (c.toldPath q start).top? = some top ∧ c.item? top = some i ∧
        q.isTarget i = true) ∧
      (c.toldPath q start).nodes.IsChain (fun up low => c.Climbs q low up) ∧
      ∀ x i l, c.Way q start x l → c.item? x = some i → q.isTarget i = true →
        (c.toldPath q start).length ≤ l.length) ∧
    ((c.toldPath q start).isEmpty = true → c.shortestPath? q start ≠ none →
      ∀ x, ReflTransGen (c.Climbs q) start x → c.Resolves q x ∧ ¬TransGen (c.Climbs q) x x ∧
        ∀ i, c.item? x = some i → q.isTarget i = false) ∧
    (c.shortestPath? q start = none → (c.toldPath q start).isEmpty = true ∧
      (c.item? start = none ∨ c.Disorder q start)) := by
  have hanswers := c.shortestPath?_answers q start
  rw [toldPath]
  cases hp : c.shortestPath? q start with
  | none =>
    rw [hp] at hanswers
    exact ⟨nofun, fun _ hn => absurd rfl hn, fun _ => ⟨rfl, hanswers⟩⟩
  | some p =>
    rw [hp] at hanswers
    obtain ⟨l⟩ := p
    cases l with
    | nil => exact ⟨nofun, fun _ _ => hanswers, nofun⟩
    | cons top below =>
      obtain ⟨x, i, hw, hi, ht, hn⟩ := hanswers
      exact ⟨fun _ => ⟨hw.getLast?, ⟨x, i, hw.head?, hi, ht⟩, hw.isChain, fun _ _ _ => hn⟩,
        nofun, nofun⟩

/-- From the second folder the first is found and the third is known not to be above; from the third
nothing is known. -/
theorem toldPath_tells_frayed :
    (frayed.toldPath (.forItem (.ofNat 1)) (.ofNat 2) = ⟨[.ofNat 1, .ofNat 2]⟩ ∧
      frayed.Climbs (.forItem (.ofNat 1)) (.ofNat 2) (.ofNat 1)) ∧
    (∀ x i, ReflTransGen (frayed.Climbs (.forItem (.ofNat 3))) (.ofNat 2) x →
      frayed.item? x = some i → Quest.isTarget (.forItem (.ofNat 3)) i = false) ∧
    frayed.Disorder (.forItem (.ofNat 1)) (.ofNat 3) := by
  have hpath : frayed.toldPath (.forItem (.ofNat 1)) (.ofNat 2) = ⟨[.ofNat 1, .ofNat 2]⟩ := by cbv
  have hempty : (frayed.toldPath (.forItem (.ofNat 3)) (.ofNat 2)).isEmpty = true := by cbv
  have hknown : frayed.shortestPath? (.forItem (.ofNat 3)) (.ofNat 2) ≠ none := by
    have : (frayed.shortestPath? (.forItem (.ofNat 3)) (.ofNat 2)).isSome = true := by cbv
    exact Option.isSome_iff_ne_none.mp this
  have hunknown : frayed.shortestPath? (.forItem (.ofNat 1)) (.ofNat 3) = none := by cbv
  have hstored : (frayed.item? (.ofNat 3)).isSome = true := by cbv
  obtain ⟨_, _, hchain, _⟩ :=
    (toldPath_tells frayed (.forItem (.ofNat 1)) (.ofNat 2)).1 (by rw [hpath]; rfl)
  rw [hpath] at hchain
  refine ⟨⟨hpath, (List.isChain_cons_cons.mp hchain).1⟩, fun x i hr hi => ?_, ?_⟩
  · exact ((toldPath_tells frayed (.forItem (.ofNat 3)) (.ofNat 2)).2.1 hempty hknown x hr).2.2 i hi
  · refine ((toldPath_tells frayed (.forItem (.ofNat 1)) (.ofNat 3)).2.2 hunknown).2.resolve_left ?_
    exact Option.isSome_iff_ne_none.mp hstored

end Filing.Cabinet
