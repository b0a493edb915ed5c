import Filing.Cabinet.Integrity
import Filing.Proofs.Edit
import Filing.Proofs.Graph.Acyclic
import Filing.Proofs.Sorted.Map
import Mathlib.Data.List.Nodup

/-!
# What the check of a cabinet says

A cabinet is *coherent* when the lists of its items, its deferred edges and its stored edges tell
the same story (`Coherent`): a reference leads to a stored edge that names the lister, and an edge
is listed once on either side.  It is *acyclic* when no item lies above itself (`Acyclic`).

`verify_eq_ok_iff`: **the check passes exactly if** the index has as many entries as there are
edges, the cabinet is coherent, and it is acyclic.  The many passes of the check come down to one
lemma about collecting (`foldlM_collect_eq_ok_iff`): a pass succeeds exactly if every reference is
good and none was seen before, and then it has seen them all.
-/

namespace Filing.Cabinet

open Relation

/-- The container holds the item: a stored edge says so. -/
def Holds (c : Cabinet) (container item : ItemId) : Prop :=
  ∃ e edge, c.edge? e = some edge ∧ edge.container = container ∧ edge.item = item

/-- No item lies above itself. -/
def Acyclic (c : Cabinet) : Prop := ∀ id, ¬TransGen c.Holds id id

/-- The edges that items list as their memberships are stored, name the item, and are listed
once. -/
structure Listed (c : Cabinet) : Prop where
  parent_stored : ∀ {id i e}, c.item? id = some i → e ∈ i.parentEdges →
    ∃ edge, c.edge? e = some edge ∧ edge.item = id
  parent_nodup : ∀ {id i}, c.item? id = some i → i.parentEdges.Nodup

/-- **Lists and stored edges agree.**  Every edge is listed by its item, and by its container or
among the deferred edges, and nothing is listed twice on either side. -/
structure Coherent (c : Cabinet) : Prop extends Listed c where
  child_stored : ∀ {id i e}, c.item? id = some i → e ∈ i.childEdges →
    ∃ edge, c.edge? e = some edge ∧ edge.container = id
  child_nodup : ∀ {id i}, c.item? id = some i → i.childEdges.Nodup
  deferred_stored : ∀ {e}, e ∈ c.deferred → ∃ edge, c.edge? e = some edge
  deferred_nodup : c.deferred.Nodup
  child_not_deferred : ∀ {id i e}, c.item? id = some i → e ∈ i.childEdges → e ∉ c.deferred
  parent_listed : ∀ {e edge}, c.edge? e = some edge →
    ∃ i, c.item? edge.item = some i ∧ e ∈ i.parentEdges
  child_listed : ∀ {e edge}, c.edge? e = some edge →
    ∃ i, c.item? edge.container = some i ∧ (e ∈ i.childEdges ∨ e ∈ c.deferred)

section Unstored

variable {c : Cabinet} {id : ItemId} {i : Item} {e : EdgeId}

theorem Listed.not_mem_parentEdges (h : c.Listed) (hn : c.edge? e = none)
    (hi : c.item? id = some i) : e ∉ i.parentEdges := fun hm => by
  obtain ⟨edge, he, _⟩ := h.parent_stored hi hm
  exact Option.some_ne_none edge (he.symm.trans hn)

theorem Coherent.not_mem_childEdges (h : c.Coherent) (hn : c.edge? e = none)
    (hi : c.item? id = some i) : e ∉ i.childEdges := fun hm => by
  obtain ⟨edge, he, _⟩ := h.child_stored hi hm
  exact Option.some_ne_none edge (he.symm.trans hn)

theorem Coherent.not_mem_deferred (h : c.Coherent) (hn : c.edge? e = none) : e ∉ c.deferred :=
  fun hm => by
    obtain ⟨edge, he⟩ := h.deferred_stored hm
    exact Option.some_ne_none edge (he.symm.trans hn)

end Unstored

/-! ## Collecting -/

theorem foldlM_collect_eq_ok_iff {good : EdgeId → Prop}
    {step : List EdgeId → EdgeId → Except Defect (List EdgeId)}
    (hstep : ∀ seen e seen', step seen e = .ok seen' ↔ good e ∧ e ∉ seen ∧ seen' = e :: seen)
    {l seen seen' : List EdgeId} (hn : seen.Nodup) :
    l.foldlM step seen = .ok seen' ↔
      (∀ e ∈ l, good e) ∧ (l.reverse ++ seen).Nodup ∧ seen' = l.reverse ++ seen := by
  induction l generalizing seen with
  | nil =>
    rw [List.foldlM_nil]
    constructor
    · rintro ⟨⟩
      exact ⟨nofun, hn, rfl⟩
    · rintro ⟨_, _, rfl⟩
      rfl
  | cons e l ih =>
    have happ : (e :: l).reverse ++ seen = l.reverse ++ e :: seen := by simp
    rw [List.foldlM_cons, happ]
    cases hs : step seen e with
    | error d =>
      constructor
      · nofun
      · rintro ⟨hg, hnd, rfl⟩
        have he : e ∉ seen := fun hm => by
          have := (List.nodup_append.mp hnd).2.1
          exact (List.nodup_cons.mp this).1 hm
        rw [(hstep seen e (e :: seen)).mpr ⟨hg e List.mem_cons_self, he, rfl⟩] at hs
        cases hs
    | ok seen₁ =>
      obtain ⟨hg, he, rfl⟩ := (hstep _ _ _).mp hs
      refine (ih (List.nodup_cons.mpr ⟨he, hn⟩)).trans ?_
      rw [List.forall_mem_cons]
      tauto

theorem checkListed_eq_ok_iff {c : Cabinet} {near : Edge → ItemId}
    {missing foreign : ItemId → EdgeId → Defect} {repeated : EdgeId → Defect} {id : ItemId}
    {l seen seen' : List EdgeId} (hn : seen.Nodup) :
    c.checkListed near missing foreign repeated id seen l = .ok seen' ↔
      (∀ e ∈ l, ∃ edge, c.edge? e = some edge ∧ near edge = id) ∧ (l.reverse ++ seen).Nodup ∧
        seen' = l.reverse ++ seen := by
  refine foldlM_collect_eq_ok_iff (fun seen e seen' => ?_) hn
  cases he : c.edge? e with
  | none => simp
  | some edge =>
    by_cases hi : near edge = id <;> by_cases hm : e ∈ seen <;> simp [hi, hm, @eq_comm _ seen']

theorem checkDeferred_eq_ok_iff {c : Cabinet} {seen seen' : List EdgeId} (hn : seen.Nodup) :
    c.checkDeferred seen = .ok seen' ↔
      (∀ e ∈ c.deferred, ∃ edge, c.edge? e = some edge) ∧ (c.deferred.reverse ++ seen).Nodup ∧
        seen' = c.deferred.reverse ++ seen := by
  refine foldlM_collect_eq_ok_iff (fun seen e seen' => ?_) hn
  rw [show (∃ edge, c.edge? e = some edge) ↔ c.edges.contains e = true from
    SortedMap.contains_eq_true_iff.symm]
  cases hc : c.edges.contains e with
  | false => simp
  | true => by_cases hm : e ∈ seen <;> simp [hm, @eq_comm _ seen']

/-- One step of `checkItems`. -/
def checkItem (c : Cabinet) (seen : List EdgeId × List EdgeId) (entry : ItemId × Item) :
    Except Defect (List EdgeId × List EdgeId) := do
  let onItem ← c.checkParentEdges entry.1 seen.1 entry.2.parentEdges
  let onContainer ← c.checkChildEdges entry.1 seen.2 entry.2.childEdges
  return (onItem, onContainer)

theorem checkItems_eq (c : Cabinet) : c.checkItems = c.items.entries.foldlM c.checkItem ([], []) :=
  rfl

/-- What an entry lists leads to stored edges that name it. -/
def EntryStored (c : Cabinet) (entry : ItemId × Item) : Prop :=
  (∀ e ∈ entry.2.parentEdges, ∃ edge, c.edge? e = some edge ∧ edge.item = entry.1) ∧
    ∀ e ∈ entry.2.childEdges, ∃ edge, c.edge? e = some edge ∧ edge.container = entry.1

theorem checkItem_eq_ok_iff {c : Cabinet} {seen r : List EdgeId × List EdgeId}
    {entry : ItemId × Item} (h₁ : seen.1.Nodup) (h₂ : seen.2.Nodup) :
    c.checkItem seen entry = .ok r ↔
      c.EntryStored entry ∧ r.1.Nodup ∧ r.2.Nodup ∧
        r = (entry.2.parentEdges.reverse ++ seen.1, entry.2.childEdges.reverse ++ seen.2) := by
  have hp : ∀ r₁, c.checkParentEdges entry.1 seen.1 entry.2.parentEdges = .ok r₁ ↔ _ := fun _ =>
    checkListed_eq_ok_iff h₁
  have hc : ∀ r₂, c.checkChildEdges entry.1 seen.2 entry.2.childEdges = .ok r₂ ↔ _ := fun _ =>
    checkListed_eq_ok_iff h₂
  rw [checkItem, bind_eq_ok_iff]
  constructor
  · rintro ⟨r₁, hr₁, h⟩
    obtain ⟨r₂, hr₂, h⟩ := bind_eq_ok_iff.mp h
    cases h
    obtain ⟨hgp, hn₁, rfl⟩ := (hp _).mp hr₁
    obtain ⟨hgc, hn₂, rfl⟩ := (hc _).mp hr₂
    exact ⟨⟨hgp, hgc⟩, hn₁, hn₂, rfl⟩
  · rintro ⟨⟨hgp, hgc⟩, hn₁, hn₂, rfl⟩
    exact ⟨_, (hp _).mpr ⟨hgp, hn₁, rfl⟩, bind_eq_ok_iff.mpr ⟨_, (hc _).mpr ⟨hgc, hn₂, rfl⟩, rfl⟩⟩

theorem foldlM_checkItem_eq_ok_iff {c : Cabinet} {l : List (ItemId × Item)}
    {seen r : List EdgeId × List EdgeId} (h₁ : seen.1.Nodup) (h₂ : seen.2.Nodup) :
    l.foldlM c.checkItem seen = .ok r ↔
      (∀ entry ∈ l, c.EntryStored entry) ∧ r.1.Nodup ∧ r.2.Nodup ∧
        r = ((l.flatMap (·.2.parentEdges)).reverse ++ seen.1,
          (l.flatMap (·.2.childEdges)).reverse ++ seen.2) := by
  induction l generalizing seen with
  | nil =>
    rw [List.foldlM_nil]
    constructor
    · intro h
      obtain rfl : seen = r := Except.ok.inj h
      exact ⟨fun _ h => absurd h List.not_mem_nil, h₁, h₂, rfl⟩
    · rintro ⟨_, _, _, rfl⟩
      rfl
  | cons entry l ih =>
    rw [List.foldlM_cons, bind_eq_ok_iff, List.forall_mem_cons]
    have happ : ∀ (x y z : List EdgeId), (x ++ y).reverse ++ z = y.reverse ++ (x.reverse ++ z) := by
      simp
    rw [List.flatMap_cons, List.flatMap_cons, happ, happ]
    constructor
    · rintro ⟨r₁, hr₁, h⟩
      obtain ⟨hg, hn₁, hn₂, rfl⟩ := (checkItem_eq_ok_iff h₁ h₂).mp hr₁
      obtain ⟨hgs, hr⟩ := (ih hn₁ hn₂).mp h
      exact ⟨⟨hg, hgs⟩, hr⟩
    · rintro ⟨⟨hg, hgs⟩, hn₁, hn₂, rfl⟩
      have hn₁' := (List.nodup_append.mp hn₁).2.1
      have hn₂' := (List.nodup_append.mp hn₂).2.1
      exact ⟨_, (checkItem_eq_ok_iff h₁ h₂).mpr ⟨hg, hn₁', hn₂', rfl⟩,
        (ih hn₁' hn₂').mpr ⟨hgs, hn₁, hn₂, rfl⟩⟩

/-! ## Both sides of the edges -/

/-- The references on the side of the items. -/
def itemSide (c : Cabinet) : List EdgeId := c.items.entries.flatMap (·.2.parentEdges)

/-- The references on the side of the containers, deferred ones included. -/
def containerSide (c : Cabinet) : List EdgeId :=
  c.items.entries.flatMap (·.2.childEdges) ++ c.deferred

theorem mem_flatMap_items {c : Cabinet} {f : Item → List EdgeId} {e : EdgeId} :
    e ∈ c.items.entries.flatMap (f ·.2) ↔ ∃ id i, c.item? id = some i ∧ e ∈ f i := by
  rw [List.mem_flatMap]
  constructor
  · rintro ⟨⟨id, i⟩, hm, he⟩
    exact ⟨id, i, SortedMap.mem_entries_iff.mp hm, he⟩
  · rintro ⟨id, i, hi, he⟩
    exact ⟨(id, i), SortedMap.mem_entries_iff.mpr hi, he⟩

theorem mem_itemSide {c : Cabinet} {e : EdgeId} :
    e ∈ c.itemSide ↔ ∃ id i, c.item? id = some i ∧ e ∈ i.parentEdges :=
  mem_flatMap_items

theorem mem_containerSide {c : Cabinet} {e : EdgeId} :
    e ∈ c.containerSide ↔ (∃ id i, c.item? id = some i ∧ e ∈ i.childEdges) ∨ e ∈ c.deferred := by
  rw [containerSide, List.mem_append, mem_flatMap_items]

/-- **The references are in order** exactly if each of them is good, none is repeated on its side,
and no stored edge is left out. -/
theorem verifyReferences_eq_ok_iff {c : Cabinet} :
    c.verifyReferences = .ok () ↔
      c.index.size = c.edges.size ∧ (∀ entry ∈ c.items.entries, c.EntryStored entry) ∧
        (∀ e ∈ c.deferred, ∃ edge, c.edge? e = some edge) ∧
        c.itemSide.Nodup ∧ c.containerSide.Nodup ∧
        ∀ e ∈ c.edges.keys, e ∈ c.itemSide ∧ e ∈ c.containerSide := by
  unfold verifyReferences
  by_cases hs : c.index.size = c.edges.size
  · have hitems : ∀ r, c.items.entries.foldlM c.checkItem ([], []) = .ok r ↔ _ := fun _ =>
      foldlM_checkItem_eq_ok_iff List.nodup_nil List.nodup_nil
    have hends : ∀ a b : List EdgeId, (c.edges.keys.forM fun e =>
        if e ∉ a then Except.error (Defect.unlistedByItem e)
        else if e ∉ b then .error (.unlistedByContainer e) else .ok ()) = .ok () ↔
        ∀ e ∈ c.edges.keys, e ∈ a ∧ e ∈ b := fun a b => by
      rw [forM_eq_ok_iff]
      apply forall₂_congr
      intro e _
      by_cases h₁ : e ∈ a <;> by_cases h₂ : e ∈ b <;> simp [h₁, h₂]
    have hi : (c.items.entries.flatMap (·.2.parentEdges)).reverse ++ [] = c.itemSide.reverse := by
      rw [itemSide, List.append_nil]
    have hc : c.deferred.reverse ++ ((c.items.entries.flatMap (·.2.childEdges)).reverse ++ []) =
        c.containerSide.reverse := by
      rw [containerSide, List.append_nil, List.reverse_append]
    rw [if_neg (not_not.mpr hs), checkItems_eq]
    show (c.items.entries.foldlM c.checkItem ([], []) >>= _) = _ ↔ _
    rw [bind_eq_ok_iff]
    constructor
    · rintro ⟨r, hr, h⟩
      obtain ⟨hg, hn₁, hn₂, rfl⟩ := (hitems r).mp hr
      obtain ⟨b, hb, h⟩ := bind_eq_ok_iff.mp h
      obtain ⟨hd, hnd, rfl⟩ := (checkDeferred_eq_ok_iff hn₂).mp hb
      rw [hends] at h
      simp only [hi, hc, List.mem_reverse, List.nodup_reverse] at hn₁ hnd h
      exact ⟨hs, hg, hd, hn₁, hnd, h⟩
    · rintro ⟨_, hg, hd, hn₁, hnd, h⟩
      have hn₂ : ((c.items.entries.flatMap (·.2.childEdges)).reverse ++ [] :
          List EdgeId).Nodup := by
        rw [List.append_nil, List.nodup_reverse]
        exact (List.nodup_append.mp hnd).1
      refine ⟨_, (hitems _).mpr ⟨hg, ?_, hn₂, rfl⟩, bind_eq_ok_iff.mpr
        ⟨_, (checkDeferred_eq_ok_iff hn₂).mpr ⟨hd, ?_, rfl⟩, ?_⟩⟩
      · rwa [hi, List.nodup_reverse]
      · rwa [hc, List.nodup_reverse]
      · rw [hends]
        simpa only [hi, hc, List.mem_reverse] using h
  · rw [if_pos hs]
    constructor
    · nofun
    · intro h
      exact absurd h.1 hs

theorem nodup_flatMap_iff {c : Cabinet} {f : Item → List EdgeId} {side : Edge → ItemId}
    (hf : ∀ entry ∈ c.items.entries, ∀ e ∈ f entry.2,
      ∃ edge, c.edge? e = some edge ∧ side edge = entry.1) :
    (c.items.entries.flatMap (f ·.2)).Nodup ↔ ∀ id i, c.item? id = some i → (f i).Nodup := by
  rw [List.nodup_flatMap]
  constructor
  · intro h id i hi
    exact h.1 (id, i) (SortedMap.mem_entries_iff.mpr hi)
  · intro h
    refine ⟨fun entry hm => h entry.1 entry.2 (SortedMap.mem_entries_iff.mp hm), ?_⟩
    refine (List.pairwise_map.mp c.items.keys_nodup).imp_of_mem fun {a b} ha hb hne e hea heb => ?_
    obtain ⟨edge, he, hea⟩ := hf a ha e hea
    obtain ⟨edge', he', heb⟩ := hf b hb e heb
    rw [he] at he'
    cases he'
    exact hne (hea.symm.trans heb)

theorem verifyEnds_eq_ok_iff {c : Cabinet} :
    c.verifyEnds = .ok () ↔ ∀ e edge, c.edge? e = some edge →
      (∃ i, c.item? edge.item = some i) ∧ ∃ i, c.item? edge.container = some i := by
  have hstep : ∀ edge : Edge, (if c.contains edge.item && c.contains edge.container
      then Except.ok () else .error (Defect.missingEnd edge.id)) = .ok () ↔
      (∃ i, c.item? edge.item = some i) ∧ ∃ i, c.item? edge.container = some i := fun edge => by
    rw [item?, item?, ← SortedMap.contains_eq_true_iff, ← SortedMap.contains_eq_true_iff]
    simp [contains]
  rw [verifyEnds, forM_eq_ok_iff]
  simp only [hstep]
  constructor
  · intro h e edge he
    exact h edge (SortedMap.mem_values_iff.mpr ⟨e, he⟩)
  · intro h edge hm
    obtain ⟨e, he⟩ := SortedMap.mem_values_iff.mp hm
    exact h e edge he

theorem mem_arcs_iff {c : Cabinet} {a b : ItemId} : (a, b) ∈ c.arcs ↔ c.Holds a b := by
  rw [arcs, List.mem_map]
  constructor
  · rintro ⟨edge, hm, he⟩
    obtain ⟨e, hs⟩ := SortedMap.mem_values_iff.mp hm
    cases he
    exact ⟨e, edge, hs, rfl, rfl⟩
  · rintro ⟨e, edge, hs, rfl, rfl⟩
    exact ⟨edge, SortedMap.mem_values_iff.mpr ⟨e, hs⟩, rfl⟩

theorem isAcyclic_arcs_iff {c : Cabinet} : Graph.isAcyclic c.arcs = true ↔ c.Acyclic := by
  rw [Graph.isAcyclic_iff, Acyclic]
  have : (fun a b => (a, b) ∈ c.arcs) = c.Holds := by
    funext a b
    exact propext mem_arcs_iff
  rw [this]

/-! ## The check -/

theorem coherent_of_verified {c : Cabinet} (hr : c.verifyReferences = .ok ())
    (he : c.verifyEnds = .ok ()) : c.Coherent := by
  obtain ⟨_, hg, hd, hn₁, hn₂, hk⟩ := verifyReferences_eq_ok_iff.mp hr
  rw [verifyEnds_eq_ok_iff] at he
  obtain ⟨hnc, hnd, hdisj⟩ := List.nodup_append.mp hn₂
  have hgp := fun entry hm => (hg entry hm).1
  have hgc := fun entry hm => (hg entry hm).2
  have hm := fun {id : ItemId} {i : Item} (h : c.item? id = some i) =>
    (SortedMap.mem_entries_iff.mpr h : (id, i) ∈ c.items.entries)
  exact
    { parent_stored := fun {id i e} hi he => hgp (id, i) (hm hi) e he
      parent_nodup := fun {id i} hi => (nodup_flatMap_iff hgp).mp hn₁ id i hi
      child_stored := fun {id i e} hi he => hgc (id, i) (hm hi) e he
      child_nodup := fun {id i} hi => (nodup_flatMap_iff hgc).mp hnc id i hi
      deferred_stored := fun {e} he => hd e he
      deferred_nodup := hnd
      child_not_deferred := fun {id i e} hi he hd =>
        hdisj e (List.mem_flatMap.mpr ⟨(id, i), hm hi, he⟩) e hd rfl
      parent_listed := fun {e edge} hs => by
        obtain ⟨id, i, hi, hmem⟩ := mem_itemSide.mp (hk e (SortedMap.mem_keys_iff.mpr ⟨_, hs⟩)).1
        obtain ⟨edge', hs', hid⟩ := hgp (id, i) (hm hi) e hmem
        rw [hs] at hs'
        cases hs'
        exact ⟨i, hid ▸ hi, hmem⟩
      child_listed := fun {e edge} hs => by
        rcases mem_containerSide.mp (hk e (SortedMap.mem_keys_iff.mpr ⟨_, hs⟩)).2 with
          ⟨id, i, hi, hmem⟩ | hdef
        · obtain ⟨edge', hs', hid⟩ := hgc (id, i) (hm hi) e hmem
          rw [hs] at hs'
          cases hs'
          exact ⟨i, hid ▸ hi, .inl hmem⟩
        · obtain ⟨i, hi⟩ := (he e edge hs).2
          exact ⟨i, hi, .inr hdef⟩ }

namespace Coherent

theorem nodup_itemSide {c : Cabinet} (h : c.Coherent) : c.itemSide.Nodup := by
  have hi := fun (entry : ItemId × Item) (hm : entry ∈ c.items.entries) =>
    (SortedMap.mem_entries_iff.mp hm : c.item? entry.1 = some entry.2)
  exact (nodup_flatMap_iff fun entry hm e he => h.parent_stored (hi entry hm) he).mpr
    fun id i => h.parent_nodup

theorem nodup_containerSide {c : Cabinet} (h : c.Coherent) : c.containerSide.Nodup := by
  have hi := fun (entry : ItemId × Item) (hm : entry ∈ c.items.entries) =>
    (SortedMap.mem_entries_iff.mp hm : c.item? entry.1 = some entry.2)
  refine List.nodup_append.mpr ⟨?_, h.deferred_nodup, fun e he e' hd hee => ?_⟩
  · exact (nodup_flatMap_iff fun entry hm e he => h.child_stored (hi entry hm) he).mpr
      fun id i => h.child_nodup
  · obtain ⟨entry, hm, he⟩ := List.mem_flatMap.mp he
    exact h.child_not_deferred (hi entry hm) he (hee ▸ hd)

theorem mem_sides {c : Cabinet} (h : c.Coherent) {e : EdgeId} {edge : Edge}
    (he : c.edge? e = some edge) : e ∈ c.itemSide ∧ e ∈ c.containerSide := by
  obtain ⟨i, hi, hm⟩ := h.parent_listed he
  obtain ⟨i', hi', hm'⟩ := h.child_listed he
  exact ⟨mem_itemSide.mpr ⟨_, i, hi, hm⟩, mem_containerSide.mpr (hm'.imp (⟨_, i', hi', ·⟩) id)⟩

theorem verifyReferences {c : Cabinet} (h : c.Coherent) (hs : c.index.size = c.edges.size) :
    c.verifyReferences = .ok () := by
  refine verifyReferences_eq_ok_iff.mpr ⟨hs, fun entry hm => ?_, fun e he => h.deferred_stored he,
    h.nodup_itemSide, h.nodup_containerSide, fun e he => ?_⟩
  · have hi : c.item? entry.1 = some entry.2 := SortedMap.mem_entries_iff.mp hm
    exact ⟨fun e he => h.parent_stored hi he, fun e he => h.child_stored hi he⟩
  · obtain ⟨edge, hs⟩ := SortedMap.mem_keys_iff.mp he
    exact h.mem_sides hs

end Coherent

/-- **What the check says**: the index counts as many memberships as there are edges, lists and
edges agree, and no item lies above itself. -/
theorem verify_eq_ok_iff {c : Cabinet} :
    c.verify = .ok () ↔ c.index.size = c.edges.size ∧ c.Coherent ∧ c.Acyclic := by
  show (c.verifyReferences >>= fun _ => c.verifyEnds >>= fun _ => _) = _ ↔ _
  rw [bind_eq_ok_iff]
  constructor
  · rintro ⟨⟨⟩, hr, h⟩
    obtain ⟨⟨⟩, he, h⟩ := bind_eq_ok_iff.mp h
    refine ⟨(verifyReferences_eq_ok_iff.mp hr).1, coherent_of_verified hr he, ?_⟩
    split at h
    · next ha => exact isAcyclic_arcs_iff.mp ha
    · cases h
  · rintro ⟨hs, hc, ha⟩
    refine ⟨(), hc.verifyReferences hs, bind_eq_ok_iff.mpr ⟨(), ?_, ?_⟩⟩
    · apply verifyEnds_eq_ok_iff.mpr
      intro e edge he
      obtain ⟨i, hi, _⟩ := hc.parent_listed he
      obtain ⟨i', hi', _⟩ := hc.child_listed he
      exact ⟨⟨i, hi⟩, i', hi'⟩
    · rw [if_pos (isAcyclic_arcs_iff.mpr ha)]

end Filing.Cabinet
