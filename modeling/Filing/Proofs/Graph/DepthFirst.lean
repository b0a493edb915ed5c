import Filing.Graph.DepthFirst
import Mathlib.Data.List.Chain
import Mathlib.Logic.Relation

/-!
# What a depth-first search finds

A graph is given by the successors of a node, which may be unknown.  A node is *grounded* when
everything ahead of it is known and every walk from it ends (`Grounded`).  A grounded node cannot
come back to itself (`Grounded.not_loop`).

The search is right in each of its three answers (`depthFirst_tells`): a clear search has a grounded
start, a node that was met again lies on a cycle ahead of the start, and the successors of a node
that blocked the search are unknown.  The first answer rests on two invariants of the search.

* `Stacked`: each node on the stack is a successor of the one below it, and what it does not owe any
  more is grounded.
* `Covered`: a successor is unmet, on the stack or grounded.

If it is not the start that was met again, then it lies on a cycle that does not pass through the
start (`depthFirst_back`), since the start is at the bottom of the stack only (`Standing`).
-/

namespace Filing.Graph

open Relation

variable {α : Type} {next : α → Option (List α)}

/-- An arc to a known successor. -/
def Arc (next : α → Option (List α)) (x y : α) : Prop := ∃ l, next x = some l ∧ y ∈ l

/-- Everything ahead of the node is known, and every walk from it ends. -/
inductive Grounded (next : α → Option (List α)) : α → Prop
  | intro {x : α} {l : List α} : next x = some l → (∀ y ∈ l, Grounded next y) → Grounded next x

namespace Grounded

theorem known {x : α} (h : Grounded next x) : ∃ l, next x = some l := by
  cases h with
  | intro hl _ => exact ⟨_, hl⟩

theorem arc {x y : α} (h : Grounded next x) (ha : Arc next x y) : Grounded next y := by
  cases h with
  | intro hl hy =>
    obtain ⟨l', hl', hm⟩ := ha
    rw [hl] at hl'
    cases hl'
    exact hy y hm

theorem reach {x y : α} (h : Grounded next x) (hr : ReflTransGen (Arc next) x y) :
    Grounded next y := by
  induction hr with
  | refl => exact h
  | tail _ ha ih => exact ih.arc ha

theorem not_loop {x : α} (h : Grounded next x) : ¬TransGen (Arc next) x x := by
  induction h with
  | @intro x l hl _ ih =>
    intro hc
    obtain ⟨y, ha, hr⟩ := TransGen.head'_iff.mp hc
    obtain ⟨l', hl', hm⟩ := ha
    rw [hl] at hl'
    cases hl'
    exact ih y hm (TransGen.tail' hr ⟨l, hl, hm⟩)

end Grounded

/-! ## The stack -/

/-- Each node is a successor of the one below it, and a successor of a node is still owed, grounded,
or the node `above`. -/
def Stacked (next : α → Option (List α)) : Option α → List (α × List α) → Prop
  | _, [] => True
  | above, (x, rest) :: stack =>
    (∃ l, next x = some l ∧ (∀ y ∈ rest, y ∈ l) ∧ (∀ y ∈ above, y ∈ l) ∧
      ∀ y ∈ l, y ∈ rest ∨ Grounded next y ∨ y ∈ above) ∧
    Stacked next (some x) stack

namespace Stacked

theorem pop {a : α} {stack : List (α × List α)} (ha : Grounded next a)
    (h : Stacked next (some a) stack) : Stacked next none stack := by
  cases stack with
  | nil => trivial
  | cons f stack =>
    obtain ⟨⟨l, hl, hr, _, hy⟩, hs⟩ := h
    refine ⟨⟨l, hl, hr, by simp, fun y hm => ?_⟩, hs⟩
    rcases hy y hm with h | h | h
    · exact .inl h
    · exact .inr (.inl h)
    · cases h
      exact .inr (.inl ha)

theorem walk {a x : α} {stack : List (α × List α)} (h : Stacked next (some a) stack)
    (hx : x ∈ stack.map (·.1)) : TransGen (Arc next) x a := by
  induction stack generalizing a with
  | nil => cases hx
  | cons f stack ih =>
    obtain ⟨⟨l, hl, _, ha, _⟩, hs⟩ := h
    have hstep : Arc next f.1 a := ⟨l, hl, ha a rfl⟩
    rcases List.mem_cons.mp hx with rfl | hx
    · exact .single hstep
    · exact (ih hs hx).tail hstep

end Stacked

/-- A successor is unmet, on the stack or grounded. -/
def Covered (next : α → Option (List α)) (stack : List (α × List α)) (unmet : List α) : Prop :=
  ∀ x y, Arc next x y → y ∈ unmet ∨ y ∈ stack.map (·.1) ∨ Grounded next y

/-! ## The search -/

/-- What a finding says of the nodes on a stack, all of which lie ahead of `s`. -/
def Finding.Tells (next : α → Option (List α)) (s : α) (stack : List (α × List α)) :
    Finding α → Prop
  | .clear => ∀ x ∈ stack.map (·.1), Grounded next x
  | .back t => ReflTransGen (Arc next) s t ∧ TransGen (Arc next) t t
  | .blocked t => ReflTransGen (Arc next) s t ∧ next t = none

/-- What is grounded need not be on the stack to be told of. -/
theorem Finding.Tells.of_stack {s : α} {stack stack' : List (α × List α)} {f : Finding α}
    (h : f.Tells next s stack')
    (hs : ∀ x ∈ stack.map (·.1), x ∈ stack'.map (·.1) ∨ Grounded next x) :
    f.Tells next s stack := by
  cases f with
  | clear => exact fun x hx => (hs x hx).elim (h x) id
  | back t => exact h
  | blocked t => exact h

variable [DecidableEq α]

theorem depthFirst_tells_of_stack {s : α} (stack : List (α × List α)) (unmet : List α)
    (hs : Stacked next none stack) (hc : Covered next stack unmet)
    (hr : ∀ x ∈ stack.map (·.1), ReflTransGen (Arc next) s x) :
    (depthFirst next stack unmet).Tells next s stack := by
  induction stack, unmet using depthFirst.induct next with
  | case1 unmet =>
    unfold depthFirst
    intro x hx
    cases hx
  | case2 node stack unmet ih =>
    -- everything that `node` leads to is grounded, so `node` is
    obtain ⟨⟨l, hl, _, _, hy⟩, hs⟩ := hs
    have hg : Grounded next node := .intro hl fun y hm => by simpa using hy y hm
    have hc' : Covered next stack unmet := fun x y ha => by
      rcases hc x y ha with h | h | h
      · exact .inl h
      · rcases List.mem_cons.mp h with rfl | h
        · exact .inr (.inr hg)
        · exact .inr (.inl h)
      · exact .inr (.inr h)
    unfold depthFirst
    refine (ih (hs.pop hg) hc' fun x hx => hr x (List.mem_cons_of_mem _ hx)).of_stack ?_
    intro x hx
    rcases List.mem_cons.mp hx with rfl | hx
    · exact .inr hg
    · exact .inl hx
  | case3 node target rest stack unmet hb =>
    obtain ⟨⟨l, hl, hrest, _, _⟩, hs⟩ := hs
    have hstep : Arc next node target := ⟨l, hl, hrest target List.mem_cons_self⟩
    rw [depthFirst, if_pos hb]
    refine ⟨(hr node List.mem_cons_self).tail hstep, ?_⟩
    rcases hb with rfl | hb
    · exact .single hstep
    · exact (hs.walk hb).tail hstep
  | case4 node target rest stack unmet hb hu hn =>
    obtain ⟨⟨l, hl, hrest, _, _⟩, hs⟩ := hs
    have hstep : Arc next node target := ⟨l, hl, hrest target List.mem_cons_self⟩
    rw [depthFirst, if_neg hb, dif_pos hu, hn]
    exact ⟨(hr node List.mem_cons_self).tail hstep, hn⟩
  | case5 node target rest stack unmet hb hu targets hn ih =>
    obtain ⟨⟨l, hl, hrest, ha, hy⟩, hs⟩ := hs
    have hstep : Arc next node target := ⟨l, hl, hrest target List.mem_cons_self⟩
    have hs' : Stacked next none ((target, targets) :: (node, rest) :: stack) := by
      refine ⟨⟨targets, hn, fun y h => h, by simp, fun y h => .inl h⟩, ⟨l, hl, ?_, ?_, ?_⟩, hs⟩
      · intro y h
        exact hrest y (List.mem_cons_of_mem _ h)
      · rintro y ⟨⟩
        exact hrest target List.mem_cons_self
      · intro y hm
        rcases hy y hm with h | h | h
        · rcases List.mem_cons.mp h with rfl | h
          · exact .inr (.inr rfl)
          · exact .inl h
        · exact .inr (.inl h)
        · cases h
    have hc' : Covered next ((target, targets) :: (node, rest) :: stack) (unmet.erase target) := by
      intro x y hxy
      rcases hc x y hxy with h | h | h
      · by_cases he : y = target
        · exact .inr (.inl (he ▸ List.mem_cons_self))
        · exact .inl ((List.mem_erase_of_ne he).mpr h)
      · exact .inr (.inl (List.mem_cons_of_mem _ h))
      · exact .inr (.inr h)
    have hr' : ∀ x ∈ ((target, targets) :: (node, rest) :: stack).map (·.1),
        ReflTransGen (Arc next) s x := by
      intro x hx
      rcases List.mem_cons.mp hx with rfl | hx
      · exact (hr node List.mem_cons_self).tail hstep
      · exact hr x hx
    rw [depthFirst, if_neg hb, dif_pos hu, hn]
    exact (ih hs' hc' hr').of_stack fun x hx => .inl (List.mem_cons_of_mem _ hx)
  | case6 node target rest stack unmet hb hu ih =>
    obtain ⟨⟨l, hl, hrest, ha, hy⟩, hs⟩ := hs
    -- the target is neither unmet nor on the stack
    have hg : Grounded next target := by
      rcases hc node target ⟨l, hl, hrest target List.mem_cons_self⟩ with h | h | h
      · exact absurd h hu
      · exact absurd (List.mem_cons.mp h) hb
      · exact h
    have hs' : Stacked next none ((node, rest) :: stack) := by
      refine ⟨⟨l, hl, fun y h => hrest y (List.mem_cons_of_mem _ h), ha, fun y hm => ?_⟩, hs⟩
      rcases hy y hm with h | h | h
      · rcases List.mem_cons.mp h with rfl | h
        · exact .inr (.inl hg)
        · exact .inl h
      · exact .inr (.inl h)
      · exact .inr (.inr h)
    rw [depthFirst, if_neg hb, dif_neg hu]
    exact (ih hs' hc hr).of_stack fun x hx => .inl hx

/-- **The search is right.**  `hc` says that what lies ahead is the start itself or unmet. -/
theorem depthFirst_tells {s : α} {l unmet : List α} (hl : next s = some l)
    (hc : ∀ x y, Arc next x y → y = s ∨ y ∈ unmet) :
    (depthFirst next [(s, l)] unmet).Tells next s [(s, l)] := by
  refine depthFirst_tells_of_stack _ _ ⟨⟨l, hl, fun y h => h, by simp, fun y h => .inl h⟩, trivial⟩
    (fun x y ha => ?_) ?_
  · rcases hc x y ha with rfl | h
    · exact .inr (.inl List.mem_cons_self)
    · exact .inl h
  · intro x hx
    rw [List.mem_singleton.mp hx]

/-! ## Which node is met again -/

/-- How the stack stands: a node is a successor of the one below it and owes successors of its own,
and the start is its lowest node alone. -/
structure Standing (next : α → Option (List α)) (s : α) (stack : List (α × List α))
    (unmet : List α) : Prop where
  owes : ∀ f ∈ stack, ∀ y ∈ f.2, Arc next f.1 y
  chain : (stack.map (·.1)).IsChain fun upper lower => Arc next lower upper
  lowest : s ∉ (stack.map (·.1)).dropLast
  met : s ∉ unmet

omit [DecidableEq α] in
theorem walk_up {s a t : α} {rest : List α} (hc : (a :: rest).IsChain fun u l => Arc next l u)
    (hs : s ∉ (a :: rest).dropLast) (ht : t ∈ a :: rest) :
    ReflTransGen (fun x y => Arc next x y ∧ y ≠ s) t a := by
  induction rest generalizing a with
  | nil =>
    rw [List.mem_singleton.mp ht]
  | cons b rest ih =>
    rcases List.mem_cons.mp ht with rfl | ht
    · exact .refl
    · rw [List.dropLast_cons_cons, List.mem_cons, not_or] at hs
      obtain ⟨hab, hc⟩ := List.isChain_cons_cons.mp hc
      exact (ih hc hs.2 ht).tail ⟨hab, Ne.symm hs.1⟩

theorem depthFirst_back_of_stack {s t : α} (stack : List (α × List α)) (unmet : List α)
    (h : Standing next s stack unmet) (hf : depthFirst next stack unmet = .back t) :
    t = s ∨ TransGen (fun x y => Arc next x y ∧ y ≠ s) t t := by
  induction stack, unmet using depthFirst.induct next with
  | case1 unmet =>
    unfold depthFirst at hf
    cases hf
  | case2 node stack unmet ih =>
    unfold depthFirst at hf
    refine ih ⟨fun f hm => h.owes f (List.mem_cons_of_mem _ hm), h.chain.tail, fun hm => ?_,
      h.met⟩ hf
    refine h.lowest ?_
    rw [List.map_cons, List.dropLast_cons_of_ne_nil]
    · exact List.mem_cons_of_mem _ hm
    · rintro hnil
      rw [hnil] at hm
      cases hm
  | case3 node target rest stack unmet hb =>
    rw [depthFirst, if_pos hb] at hf
    cases hf
    by_cases hs : t = s
    · exact .inl hs
    · have hstep := h.owes _ List.mem_cons_self t List.mem_cons_self
      exact .inr (TransGen.tail' (walk_up h.chain h.lowest (List.mem_cons.mpr hb)) ⟨hstep, hs⟩)
  | case4 node target rest stack unmet hb hu hn =>
    rw [depthFirst, if_neg hb, dif_pos hu, hn] at hf
    cases hf
  | case5 node target rest stack unmet hb hu targets hn ih =>
    rw [depthFirst, if_neg hb, dif_pos hu, hn] at hf
    have hstep := h.owes _ List.mem_cons_self target List.mem_cons_self
    refine ih ⟨?_, .cons_cons hstep h.chain, ?_, fun hm => h.met (List.mem_of_mem_erase hm)⟩ hf
    · intro f hm y hy
      rcases List.mem_cons.mp hm with rfl | hm
      · exact ⟨targets, hn, hy⟩
      · rcases List.mem_cons.mp hm with rfl | hm
        · exact h.owes _ List.mem_cons_self y (List.mem_cons_of_mem _ hy)
        · exact h.owes f (List.mem_cons_of_mem _ hm) y hy
    · show s ∉ (target :: node :: stack.map (·.1)).dropLast
      rw [List.dropLast_cons_cons, List.mem_cons, not_or]
      exact ⟨fun hs => h.met (hs ▸ hu), h.lowest⟩
  | case6 node target rest stack unmet hb hu ih =>
    rw [depthFirst, if_neg hb, dif_neg hu] at hf
    refine ih ⟨fun f hm y hy => ?_, h.chain, h.lowest, h.met⟩ hf
    rcases List.mem_cons.mp hm with rfl | hm
    · exact h.owes _ List.mem_cons_self y (List.mem_cons_of_mem _ hy)
    · exact h.owes f (List.mem_cons_of_mem _ hm) y hy

/-- **What is met again is the start, or lies on a cycle that the start is not on.** -/
theorem depthFirst_back {s t : α} {l unmet : List α} (hl : next s = some l) (hu : s ∉ unmet)
    (hf : depthFirst next [(s, l)] unmet = .back t) :
    t = s ∨ TransGen (fun x y => Arc next x y ∧ y ≠ s) t t := by
  refine depthFirst_back_of_stack _ _ ⟨?_, .singleton s, List.not_mem_nil, hu⟩ hf
  intro f hm y hy
  rw [List.mem_singleton.mp hm] at hy ⊢
  exact ⟨l, hl, hy⟩

/-! ## Lists of arcs -/

theorem mem_targets {arcs : List (α × α)} {x y : α} : y ∈ targets arcs x ↔ (x, y) ∈ arcs := by
  rw [targets, List.mem_map]
  constructor
  · rintro ⟨⟨x', y'⟩, hm, rfl⟩
    rw [List.mem_filter, decide_eq_true_eq] at hm
    exact hm.2 ▸ hm.1
  · intro h
    exact ⟨(x, y), List.mem_filter.mpr ⟨h, by simp⟩, rfl⟩

theorem arc_targets_iff {arcs : List (α × α)} {x y : α} :
    Arc (fun node => some (targets arcs node)) x y ↔ (x, y) ∈ arcs := by
  constructor
  · rintro ⟨l, hl, hm⟩
    cases hl
    exact mem_targets.mp hm
  · intro h
    exact ⟨_, rfl, mem_targets.mpr h⟩

/-- **A walk from the start comes back to a node** exactly if a cycle can be reached. -/
theorem hasCycleFrom_iff {start : α} {arcs : List (α × α)} :
    hasCycleFrom start arcs = true ↔
      ∃ x, ReflTransGen (fun a b => (a, b) ∈ arcs) start x ∧
        TransGen (fun a b => (a, b) ∈ arcs) x x := by
  have harc : Arc (fun node => some (targets arcs node)) = fun a b => (a, b) ∈ arcs := by
    funext a b
    exact propext arc_targets_iff
  have hc : ∀ x y, Arc (fun node => some (targets arcs node)) x y →
      y = start ∨ y ∈ (arcs.map (·.2)).eraseDups.erase start := by
    intro x y ha
    by_cases hy : y = start
    · exact .inl hy
    · refine .inr ((List.mem_erase_of_ne hy).mpr (List.mem_eraseDups.mpr ?_))
      exact List.mem_map.mpr ⟨(x, y), arc_targets_iff.mp ha, rfl⟩
  have ht := depthFirst_tells rfl hc
  rw [← harc]
  cases h : depthFirst (fun node => some (targets arcs node)) [(start, targets arcs start)]
      ((arcs.map (·.2)).eraseDups.erase start) with
  | clear =>
    have hf : hasCycleFrom start arcs = false := by simp [hasCycleFrom, h]
    rw [h] at ht
    rw [hf]
    refine ⟨nofun, ?_⟩
    rintro ⟨x, hr, hx⟩
    exact absurd hx ((ht start List.mem_cons_self).reach hr).not_loop
  | back t =>
    rw [h] at ht
    have hf : hasCycleFrom start arcs = true := by simp [hasCycleFrom, h]
    exact ⟨fun _ => ⟨t, ht⟩, fun _ => hf⟩
  | blocked t =>
    rw [h] at ht
    cases ht.2

end Filing.Graph
