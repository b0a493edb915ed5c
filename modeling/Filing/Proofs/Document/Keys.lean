import Filing.Proofs.Ascent.Search
import Filing.Proofs.Document.Acceptance

/-!
# Keys and names in an accepted document

An edge stands under a number and bears one, and so does an item with its identifier.  The check of
what was read does not compare them, and both are used: the index leads by the number that an edge
bears, and a search upwards compares the identifiers that items bear.

* `Accepted.ownNumbers_iff`: whatever is asked of a membership through the index is about this
  membership **exactly if every edge stands under its own number**.  Marking it and ending it then
  leave all others alone.
* `Accepted.ownIds_iff`: a search upwards finds what lies above **exactly if every item stands under
  its own identifier**.
-/

namespace Filing.Cabinet

open Relation

variable {c : Cabinet}

/-- Every edge stands under the number that it bears. -/
def OwnNumbers (c : Cabinet) : Prop := ∀ {e edge}, c.edge? e = some edge → edge.id = e

/-- Every item stands under the identifier that it bears. -/
def OwnIds (c : Cabinet) : Prop := ∀ {id i}, c.item? id = some i → i.id = id

/-! ## Memberships -/

/-- The index leads from a pair to an edge of this pair. -/
def Leads (c : Cabinet) (key : Membership) : Prop :=
  ∃ edge, c.edgeBetween? key = some edge ∧ edge.item = key.item ∧ edge.container = key.container

/-- Setting or removing the deletion mark of a membership changes this mark and nothing else. -/
def MarksOnly (c : Cabinet) (key : Membership) : Prop :=
  ∀ deleted now, ∃ c', c.markDeletedIn key deleted now = .ok (true, c') ∧
    c' = { c with edges := c'.edges } ∧
    ∀ e, c'.edge? e =
      (c.edge? e).map fun edge => if edge.key = key then edge.mark deleted now else edge

/-- Ending a membership succeeds and ends no other. -/
def EndsOnly (c : Cabinet) (key : Membership) : Prop :=
  ∃ c', (remove key.container key.item .null).on c = (.ok true, c') ∧
    (∀ e, c'.edge? e = (c.edge? e).filter fun edge => edge.key ≠ key) ∧
    ∀ p id, (id ∈ c'.children p ↔ id ∈ c.children p ∧ (⟨id, p⟩ : Membership) ≠ key) ∧
      (p ∈ c'.parents id ↔ p ∈ c.parents id ∧ (⟨id, p⟩ : Membership) ≠ key)

/-- Members are those to which the index leads, and marking or ending a membership concerns it
alone. -/
def LeadsAright (c : Cabinet) : Prop :=
  ∀ p id, (id ∈ c.children p ↔ c.Leads ⟨id, p⟩) ∧
    (id ∈ c.children p → c.MarksOnly ⟨id, p⟩ ∧ c.EndsOnly ⟨id, p⟩)

namespace Accepted

variable {e e' : EdgeId} {edge edge' : Edge}

theorem key_eq_iff (h : c.Accepted) (he : c.edge? e = some edge) (he' : c.edge? e' = some edge') :
    edge'.key = edge.key ↔ e' = e := by
  refine ⟨h.eq_of_key_eq he' he, ?_⟩
  rintro rfl
  cases he.symm.trans he'
  rfl

theorem leads_iff (h : c.Accepted) (ho : c.OwnNumbers) {p id : ItemId} :
    c.Leads ⟨id, p⟩ ↔ c.Holds p id := by
  constructor
  · rintro ⟨edge, he, hid, hp⟩
    obtain ⟨e, _, he⟩ := Option.bind_eq_some_iff.mp he
    exact ⟨e, edge, he, hp, hid⟩
  · rintro ⟨e, edge, he, rfl, rfl⟩
    refine ⟨edge, ?_, rfl, rfl⟩
    have hb := h.edgeBetween?_eq he
    rwa [ho he, he] at hb

theorem find?_index (h : c.Accepted) (ho : c.OwnNumbers) (he : c.edge? e = some edge) :
    c.index.find? edge.key = some e := h.index_iff.mpr ⟨e, edge, he, rfl, ho he⟩

theorem marksOnly (h : c.Accepted) (ho : c.OwnNumbers) (he : c.edge? e = some edge) :
    c.MarksOnly edge.key := by
  intro deleted now
  obtain ⟨i, hi, _⟩ := h.parent_listed he
  obtain ⟨j, hj, _⟩ := h.child_listed he
  refine ⟨_, markDeletedIn_of_edge hi hj (h.find?_index ho he) he deleted now, rfl, fun e' => ?_⟩
  rw [edge?_markEdge]
  cases he' : c.edge? e' with
  | none => simp
  | some edge' => by_cases heq : e' = e <;> simp [heq, h.key_eq_iff he he']

theorem endsOnly (h : c.Accepted) (ho : c.OwnNumbers) (he : c.edge? e = some edge) :
    c.EndsOnly edge.key := by
  obtain ⟨c', hc', hu⟩ := h.exists_unlinked (h.find?_index ho he) he rfl
  have hkey : ∀ {e' edge'}, c.edge? e' = some edge' → (edge'.key = edge.key ↔ e' = e) :=
    fun he' => h.key_eq_iff he he'
  have hend : (remove edge.container edge.item .null).on c = (.ok true, c') := by
    rw [on_remove_of_some hc']
    rfl
  have hcoh := hu.coherent h.toCoherent
  have hholds : ∀ {p id}, c'.Holds p id ↔ c.Holds p id ∧ (⟨id, p⟩ : Membership) ≠ edge.key := by
    intro p id
    constructor
    · rintro ⟨e', edge', he', rfl, rfl⟩
      obtain ⟨hne, he'⟩ := hu.edge?_before he'
      exact ⟨⟨e', edge', he', rfl, rfl⟩, fun hk => hne ((hkey he').mp hk)⟩
    · rintro ⟨⟨e', edge', he', rfl, rfl⟩, hk⟩
      exact ⟨e', edge', hu.edge?_of_ne (fun heq => hk ((hkey he').mpr heq)) he', rfl, rfl⟩
  refine ⟨c', hend, fun e' => ?_, fun p id => ⟨?_, ?_⟩⟩
  · rw [hu.edge?]
    cases he' : c.edge? e' with
    | none => simp
    | some edge' => by_cases heq : e' = e <;> simp [heq, hkey he', Option.filter]
  · rw [hcoh.mem_children_iff, h.mem_children_iff, hholds]
  · rw [hcoh.mem_parents_iff, h.mem_parents_iff, hholds]

/-- **The index is right** exactly if every edge stands under its own number. -/
theorem ownNumbers_iff (h : c.Accepted) : c.OwnNumbers ↔ c.LeadsAright := by
  constructor
  · intro ho p id
    rw [h.mem_children_iff, h.leads_iff ho]
    refine ⟨.rfl, ?_⟩
    rintro ⟨e, edge, he, rfl, rfl⟩
    exact ⟨h.marksOnly ho he, h.endsOnly ho he⟩
  · intro hl e edge he
    -- the edge that is found for the ends of this one can only be this one
    have hm : edge.item ∈ c.children edge.container :=
      h.mem_children_iff.mpr ⟨e, edge, he, rfl, rfl⟩
    obtain ⟨edge', hb, hid, hp⟩ := (hl edge.container edge.item).1.mp hm
    have hb := (h.edgeBetween?_eq he).symm.trans hb
    apply h.eq_of_key_eq hb he
    rw [Edge.key, Edge.key, hid, hp]

end Accepted

/-! ## Searches -/

/-- A search from one stored item for another finds it exactly if it is the same or lies above. -/
def SearchesAright (c : Cabinet) : Prop :=
  ∀ id target, c.contains id = true → c.contains target = true →
    (c.reaches id target = true ↔ ReflTransGen (fun a b => b ∈ c.parents a) id target)

namespace Accepted

/-- **Searches are right** exactly if every item stands under its own identifier. -/
theorem ownIds_iff (h : c.Accepted) : c.OwnIds ↔ c.SearchesAright := by
  have hup : (fun a b => b ∈ c.parents a) = Function.swap c.Holds := by
    funext a b
    exact propext h.mem_parents_iff
  simp only [SearchesAright, hup, contains, SortedMap.contains_eq_true_iff]
  have hswap : ∀ {a b}, ReflTransGen (Function.swap c.Holds) a b ↔ ReflTransGen c.Holds b a :=
    reflTransGen_swap
  constructor
  · rintro ho id target hid ⟨i, hi⟩
    rw [h.reaches_iff h.acyclic hid, hswap]
    constructor
    · rintro ⟨top, j, hr, hj, rfl⟩
      rwa [ho hj]
    · intro hr
      exact ⟨target, i, hr, hi, ho hi⟩
  · intro hl id i hi
    -- an item above that bears the identifier would be above and below
    have hreach : c.reaches id id = true := (hl id id ⟨i, hi⟩ ⟨i, hi⟩).mpr .refl
    obtain ⟨top, j, hr, hj, hid⟩ := (h.reaches_iff h.acyclic ⟨i, hi⟩).mp hreach
    rcases ReflTransGen.cases_head hr with rfl | ⟨below, hb, hr⟩
    · cases hi.symm.trans hj
      exact hid
    · have hback : c.reaches top id = true :=
        (h.reaches_iff h.acyclic ⟨j, hj⟩).mpr ⟨top, j, .refl, hj, hid⟩
      have hdown := hswap.mp ((hl top id ⟨j, hj⟩ ⟨i, hi⟩).mp hback)
      exact absurd (TransGen.head' hb (hr.trans hdown)) (h.acyclic top)

theorem top?_of_ownIds (h : c.Accepted) (ho : c.OwnIds) {id target : ItemId}
    (hid : c.contains id = true) :
    ∃ p, c.shortestPathTo? id target = some p ∧ (p.isEmpty = false → p.top? = some target) := by
  obtain ⟨p, hp, hsome, _⟩ :=
    h.shortestPathTo?_tells h.acyclic (SortedMap.contains_eq_true_iff.mp hid) target
  refine ⟨p, hp, fun he => ?_⟩
  obtain ⟨top, ht⟩ := ItemPath.isEmpty_eq_false_iff.mp he
  obtain ⟨_, i, hi, rfl⟩ := hsome top ht
  rw [ht, ho hi]

end Accepted

/-- **When an accepted document can be relied on.**  Memberships can be, exactly if every edge
stands under its own number; searches can be, exactly if every item stands under its own identifier,
and the path that is found then begins with the item that was looked for. -/
theorem accepted_aright_iff {text : String} {settings : Settings} {epoch : Epoch}
    (hload : settings.verifyOnLoad = true) (h : ofDocument text settings epoch = .ok c) :
    (c.OwnNumbers ↔ c.LeadsAright) ∧ (c.OwnIds ↔ c.SearchesAright) ∧
      (c.OwnIds → ∀ id target, c.contains id = true →
        ∃ p, c.shortestPathTo? id target = some p ∧
          (p.isEmpty = false → p.top? = some target)) := by
  have ha := accepted_of_ofDocument hload h
  exact ⟨ha.ownNumbers_iff, ha.ownIds_iff, fun ho _ _ hid => ha.top?_of_ownIds ho hid⟩

theorem not_aright_drifted : ofDocument driftedText .standard 0 = .ok drifted ∧
    ¬drifted.LeadsAright ∧ ¬drifted.SearchesAright := by
  have hedge : drifted.edge? ⟨1⟩ = some (.make ⟨5⟩ ⟨.ofNat 2, .ofNat 1⟩ .anonymous .start) := by cbv
  have hitem : drifted.item? (.ofNat 3) = some (.bare 4 .document []) := by cbv
  have haright := accepted_aright_iff rfl ofDocument_driftedText
  refine ⟨ofDocument_driftedText, fun hl => ?_, fun hs => ?_⟩
  · have hid := haright.1.mpr hl hedge
    exact absurd hid (by decide)
  · have hid := haright.2.1.mpr hs hitem
    exact absurd hid (by decide)

end Filing.Cabinet
