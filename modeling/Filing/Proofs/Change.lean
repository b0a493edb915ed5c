import Filing.Placement
import Filing.Proofs.Ascent.Cycle
import Filing.Proofs.Cabinet.Upkeep
import Filing.Proofs.Edit
import Mathlib.Algebra.Group.Nat.Defs

/-!
# Elementary changes

Every operation is a sequence of elementary changes (`Change`, `Changes`), each of which comes with
the conditions that the operations check before it.  The number of new edges is counted, because
edge numbers have 64 bits and start again from zero.

* `Accounted`: the edges that items list are stored, stored edges have numbers below the next one,
  and there are as many as the index names.  **A sequence keeps this as long as the numbers last**
  (`Changes.accounted`).
* `Changes.sound`: **so it does with soundness**.  That no cycle arises is what the check before a
  new membership is for.
-/

namespace Filing

open Relation

namespace EdgeId

theorem toNat_next {e : EdgeId} (h : e.toNat + 1 < 2 ^ 64) : e.next.toNat = e.toNat + 1 := by
  show (e.value + 1).toNat = e.value.toNat + 1
  rw [UInt64.toNat_add, UInt64.toNat_one]
  exact Nat.mod_eq_of_lt h

theorem next_ne (e : EdgeId) : e.next ≠ e := by
  intro h
  have hv : (e.value + 1).toNat = e.value.toNat := congrArg EdgeId.toNat h
  rw [UInt64.toNat_add, UInt64.toNat_one] at hv
  have := e.value.toNat_lt
  omega

end EdgeId

namespace Cabinet

variable {c c' c'' : Cabinet}

/-! ## The check before an addition -/

theorem item_eq_ok_iff {id : ItemId} {i : Item} : c.item id = .ok i ↔ c.item? id = some i := by
  unfold item
  cases c.item? id <;> simp

theorem container_eq_ok_iff {id : ItemId} {i : Item} :
    c.container id = .ok i ↔ c.item? id = some i ∧ i.isContainer = true := by
  rw [container, bind_eq_ok_iff]
  simp only [item_eq_ok_iff]
  constructor
  · rintro ⟨j, hj, h⟩
    split at h
    · next hc =>
      cases h
      exact ⟨hj, hc⟩
    · cases h
  · rintro ⟨hi, hc⟩
    exact ⟨i, hi, if_pos hc⟩

theorem checkAdd_eq_ok_iff {parent child : ItemId} {policy : AddPolicy} :
    c.checkAdd parent child policy = .ok () ↔
      parent ≠ child ∧ (∃ i j, c.item? parent = some i ∧ i.isContainer = true ∧
        c.item? child = some j ∧ policy.allows i j = true) ∧
      c.checkCycle parent child = .acyclic := by
  unfold checkAdd
  by_cases hne : parent = child
  · rw [if_pos hne]
    exact ⟨nofun, fun h => absurd hne h.1⟩
  rw [if_neg hne]
  show (c.container parent >>= fun _ => c.item child >>= fun _ => _) = _ ↔ _
  rw [bind_eq_ok_iff]
  simp only [bind_eq_ok_iff, container_eq_ok_iff, item_eq_ok_iff]
  constructor
  · rintro ⟨i, ⟨hi, hc⟩, j, hj, h⟩
    cases hp : policy.allows i j with
    | false =>
      rw [hp] at h
      cases h
    | true =>
      rw [hp] at h
      refine ⟨hne, ⟨i, j, hi, hc, hj, hp⟩, ?_⟩
      cases hv : c.checkCycle parent child with
      | acyclic => rfl
      | wouldCycle =>
        rw [hv] at h
        cases h
      | inconsistent =>
        rw [hv] at h
        cases h
  · rintro ⟨_, ⟨i, j, hi, hc, hj, hp⟩, hv⟩
    refine ⟨i, ⟨hi, hc⟩, j, hj, ?_⟩
    rw [hp, hv]
    rfl

/-! ## Changes -/

/-- One elementary change, with the number of edges that it enters. -/
inductive Change : Nat → Cabinet → Cabinet → Prop
  | retouch {c c' : Cabinet} : Retouched c c' → Change 0 c c'
  | link {c : Cabinet} {parent child : ItemId} {policy : AddPolicy} (owner : Principal)
      (defer : Bool) (now : Timestamp) : c.checkAdd parent child policy = .ok () →
      c.index.find? ⟨child, parent⟩ = none →
      Change 1 c (c.withEdge ⟨child, parent⟩ owner defer now)
  | unlink {c c' : Cabinet} {key : Membership} : c.unlink? key = some c' → Change 0 c c'
  | flush (c : Cabinet) : Change 0 c c.flushDeferred.1
  | mark (c : Cabinet) (e : EdgeId) (deleted : Bool) (now : Timestamp) :
      Change 0 c (c.markEdge e deleted now)
  | insert {c : Cabinet} {item : Item} : c.item? item.id = none → Change 0 c (c.insertItem item)
  | erase {c : Cabinet} {id : ItemId} {i : Item} : c.item? id = some i → i.parentEdges = [] →
      (i.isContainer = true → c.childEdges id = []) → Change 0 c (c.eraseItem id)

/-- A sequence of changes, with the number of edges that they enter. -/
inductive Changes : Nat → Cabinet → Cabinet → Prop
  | refl (c : Cabinet) : Changes 0 c c
  | tail {n k : Nat} {c c' c'' : Cabinet} : Changes n c c' → Change k c' c'' →
      Changes (n + k) c c''

namespace Changes

variable {n m : Nat}

theorem single (h : Change n c c') : Changes n c c' := by
  have := (Changes.refl c).tail h
  rwa [Nat.zero_add] at this

theorem trans (h : Changes n c c') (h' : Changes m c' c'') : Changes (n + m) c c'' := by
  induction h' with
  | refl => exact h
  | tail _ hk ih =>
    rw [← Nat.add_assoc]
    exact (ih h).tail hk

theorem retouch (h : Retouched c c') : Changes 0 c c' := single (.retouch h)

end Changes

theorem Change.settings {k : Nat} (h : Change k c c') : c'.settings = c.settings := by
  cases h with
  | retouch h => exact h.settings
  | link owner defer now _ _ => exact settings_withEdge ..
  | unlink h =>
    obtain ⟨e, hu⟩ := unlinked_of_unlink? h
    exact hu.settings
  | flush => rw [flushDeferred_eq]
  | mark => rfl
  | insert => rfl
  | erase => rfl

theorem Changes.settings {n : Nat} (h : Changes n c c') : c'.settings = c.settings := by
  induction h with
  | refl => rfl
  | tail _ hk ih => exact hk.settings.trans ih

/-! ## Numbers and counts -/

theorem Change.nextEdge {k : Nat} (h : Change k c c') :
    c'.nextEdge = EdgeId.next^[k] c.nextEdge := by
  cases h with
  | retouch h => exact h.nextEdge
  | link => rfl
  | unlink h =>
    obtain ⟨e, hu⟩ := unlinked_of_unlink? h
    exact hu.nextEdge
  | flush =>
    rw [flushDeferred_eq]
    rfl
  | mark => rfl
  | insert => rfl
  | erase => rfl

theorem Changes.nextEdge {n : Nat} (h : Changes n c c') :
    c'.nextEdge = EdgeId.next^[n] c.nextEdge := by
  induction h with
  | refl => rfl
  | @tail n k _ _ _ _ hk ih => rw [hk.nextEdge, ih, Nat.add_comm, Function.iterate_add_apply]

/-- What items list is stored, the stored edges have numbers below the next one, and they are as
many as the index names. -/
structure Accounted (c : Cabinet) : Prop extends Listed c where
  number_lt : ∀ {e edge}, c.edge? e = some edge → e.toNat < c.nextEdge.toNat
  size_eq : c.index.size = c.edges.size

/-- **The next number is free.** -/
theorem Accounted.nextEdge_free (h : c.Accounted) : c.edge? c.nextEdge = none := by
  cases he : c.edge? c.nextEdge with
  | none => rfl
  | some edge => exact absurd (h.number_lt he) (Nat.lt_irrefl _)

theorem Change.accounted {k : Nat} (h : Change k c c') (ha : c.Accounted)
    (hk : c.nextEdge.toNat + k < 2 ^ 64) :
    c'.Accounted ∧ c'.nextEdge.toNat = c.nextEdge.toNat + k := by
  cases h with
  | retouch h =>
    refine ⟨⟨h.listed ha.toListed, fun {e edge} he => ?_, ?_⟩, congrArg EdgeId.toNat h.nextEdge⟩
    · rw [h.edge?] at he
      exact h.nextEdge ▸ ha.number_lt he
    · rw [h.index, h.edges]
      exact ha.size_eq
  | @link _ parent child _ owner defer now _ hi =>
    have hn := ha.nextEdge_free
    have hnext := EdgeId.toNat_next hk
    refine ⟨⟨ha.toListed.withEdge owner defer now hn, fun {e edge} he => ?_, ?_⟩, hnext⟩
    · show e.toNat < c.nextEdge.next.toNat
      rw [edge?_withEdge] at he
      split at he
      · next heq =>
        rw [heq, hnext]
        omega
      · have := ha.number_lt he
        omega
    · rw [index_withEdge, edges_withEdge, SortedMap.size_insert _ hi, SortedMap.size_insert _ hn,
        ha.size_eq]
  | unlink h =>
    obtain ⟨e, hu⟩ := unlinked_of_unlink? h
    refine ⟨⟨hu.listed ha.toListed, fun {e edge} he => ?_, ?_⟩, congrArg EdgeId.toNat hu.nextEdge⟩
    · exact hu.nextEdge ▸ ha.number_lt (hu.edge?_before he).2
    · exact hu.size_eq ha.toListed ha.size_eq
  | flush =>
    have hnext : c.flushDeferred.1.nextEdge = c.nextEdge := by rw [flushDeferred_eq]
    refine ⟨⟨ha.toListed.flushDeferred, fun {e edge} he => ?_, ?_⟩, congrArg EdgeId.toNat hnext⟩
    · rw [edge?_flushDeferred] at he
      exact hnext ▸ ha.number_lt he
    · rw [flushDeferred_eq]
      exact ha.size_eq
  | mark =>
    refine ⟨⟨ha.toListed.markEdge, fun {e edge} he => ?_, ?_⟩, rfl⟩
    · obtain ⟨edge', he', _⟩ := edge_before_mark he
      exact ha.number_lt he'
    · exact ha.size_eq.trans (SortedMap.size_modify _ _ _).symm
  | insert h => exact ⟨⟨ha.toListed.insertItem _, ha.number_lt, ha.size_eq⟩, rfl⟩
  | erase h => exact ⟨⟨ha.toListed.eraseItem _, ha.number_lt, ha.size_eq⟩, rfl⟩

/-- **The account holds as long as the numbers last.** -/
theorem Changes.accounted {n : Nat} (h : Changes n c c') (ha : c.Accounted)
    (hn : c.nextEdge.toNat + n < 2 ^ 64) :
    c'.Accounted ∧ c'.nextEdge.toNat = c.nextEdge.toNat + n := by
  induction h with
  | refl => exact ⟨ha, rfl⟩
  | @tail n k _ _ _ _ hk ih =>
    obtain ⟨ha', hnext⟩ := ih ha (by omega)
    obtain ⟨ha'', hnext'⟩ := hk.accounted ha' (by omega)
    exact ⟨ha'', by omega⟩

/-! ## Soundness -/

theorem Acyclic.of_holds (ha : c.Acyclic) (h : ∀ p id, c'.Holds p id → c.Holds p id) :
    c'.Acyclic := fun id hc => ha id (TransGen.mono h id id hc)

theorem Acyclic.withEdge (ha : c.Acyclic) {key : Membership} (owner : Principal) (defer : Bool)
    (now : Timestamp) (hn : c.edge? c.nextEdge = none)
    (hback : ¬ReflTransGen c.Holds key.item key.container) :
    (c.withEdge key owner defer now).Acyclic := by
  intro id hid
  apply (Graph.acyclic_with_arc_iff ha).mpr hback id
  refine TransGen.mono (fun p i hh => ?_) id id hid
  exact (holds_withEdge owner defer now hn).mp hh

theorem Sound.withEdge (h : c.Sound) {parent child : ItemId} {policy : AddPolicy}
    (owner : Principal) (defer : Bool) (now : Timestamp) (hn : c.edge? c.nextEdge = none)
    (hadd : c.checkAdd parent child policy = .ok ())
    (hi : c.index.find? ⟨child, parent⟩ = none) :
    (c.withEdge ⟨child, parent⟩ owner defer now).Sound := by
  obtain ⟨_, ⟨i, j, hpi, hc, hcj, _⟩, hv⟩ := checkAdd_eq_ok_iff.mp hadd
  refine
    { toCoherent := h.toCoherent.withEdge owner defer now hn ⟨j, hcj⟩ ⟨i, hpi⟩
      toIndexed := h.toIndexed.withEdge owner defer now hn hi
      item_id := ?item_id
      container_isContainer := ?container_isContainer
      acyclic := ?acyclic }
  case item_id =>
    intro id k hk
    rw [item?_withEdge] at hk
    obtain ⟨k', hk', rfl⟩ := Option.map_eq_some_iff.mp hk
    exact h.item_id (i := k') hk'
  case container_isContainer =>
    intro e edge k he hk
    rw [item?_withEdge] at hk
    obtain ⟨k', hk', rfl⟩ := Option.map_eq_some_iff.mp hk
    rw [edge?_withEdge] at he
    split at he
    · cases he
      rw [show c.item? (Edge.make c.nextEdge ⟨child, parent⟩ owner now).container = some i from hpi]
        at hk'
      cases hk'
      exact hc
    · exact h.container_isContainer (i := k') he hk'
  case acyclic =>
    have hback := ((checkCycle_eq_acyclic_iff h.toCoherent h.acyclic).mp hv).2
    exact h.acyclic.withEdge owner defer now hn hback

theorem Sound.unlinked (h : c.Sound) {key : Membership} {e : EdgeId} (hu : c.Unlinked key e c') :
    c'.Sound where
  toCoherent := hu.coherent h.toCoherent
  toIndexed := hu.indexed h.toIndexed
  item_id hi := by
    obtain ⟨j, hj, rfl⟩ := hu.item_before hi
    exact h.item_id (i := j) hj
  container_isContainer he hi := by
    obtain ⟨j, hj, rfl⟩ := hu.item_before hi
    exact h.container_isContainer (i := j) (hu.edge?_before he).2 hj
  acyclic := h.acyclic.of_holds fun _ _ => hu.holds_before

theorem Sound.flushDeferred (h : c.Sound) : c.flushDeferred.1.Sound where
  toCoherent := h.toCoherent.flushDeferred
  toIndexed := h.toIndexed.flushDeferred
  item_id hi := by
    obtain ⟨j, hj, rfl⟩ := item_before_flush hi
    exact h.item_id (i := j) hj
  container_isContainer he hi := by
    obtain ⟨j, hj, rfl⟩ := item_before_flush hi
    exact h.container_isContainer (i := j) (edge?_flushDeferred c _ ▸ he) hj
  acyclic := h.acyclic.of_holds fun _ _ => holds_flushDeferred.mp

theorem Sound.markEdge (h : c.Sound) (e : EdgeId) (deleted : Bool) (now : Timestamp) :
    (c.markEdge e deleted now).Sound where
  toCoherent := h.toCoherent.markEdge
  toIndexed := h.toIndexed.markEdge
  item_id := h.item_id
  container_isContainer {e' edge' i} he hi := by
    obtain ⟨edge, he, hk, _⟩ := edge_before_mark he
    have hcont : edge.container = edge'.container := congrArg Membership.container hk
    exact h.container_isContainer he (hcont ▸ hi)
  acyclic := h.acyclic.of_holds fun _ _ => holds_markEdge.mp

theorem Sound.insertItem (h : c.Sound) {item : Item} (hn : c.item? item.id = none) :
    (c.insertItem item).Sound where
  toCoherent := h.toCoherent.insertItem fun i hi => absurd (hn.symm.trans hi) nofun
  toIndexed := ⟨h.edge_id, h.index_iff⟩
  item_id {id i} hi := by
    rw [item?_insertItem] at hi
    split at hi
    · next hid =>
      cases hi
      exact hid.symm
    · exact h.item_id hi
  container_isContainer {e edge i} he hi := by
    rw [item?_insertItem, if_neg ?_] at hi
    · exact h.container_isContainer he hi
    · intro heq
      obtain ⟨j, hj, _⟩ := h.child_listed he
      rw [heq, hn] at hj
      cases hj
  acyclic := h.acyclic

theorem Sound.eraseItem (h : c.Sound) {id : ItemId} {i : Item} (hi : c.item? id = some i)
    (hp : i.parentEdges = []) (hc : i.isContainer = true → c.childEdges id = []) :
    (c.eraseItem id).Sound := by
  have hfree : ∀ e edge, c.edge? e = some edge → edge.item ≠ id ∧ edge.container ≠ id := by
    intro e edge he
    constructor
    · rintro rfl
      obtain ⟨j, hj, hm⟩ := h.parent_listed he
      rw [hi] at hj
      cases hj
      rw [hp] at hm
      cases hm
    · rintro rfl
      have hm : edge.item ∈ c.children edge.container :=
        h.mem_children_iff.mpr ⟨e, edge, he, rfl, rfl⟩
      rw [children, hc (h.container_isContainer he hi)] at hm
      cases hm
  exact
    { toCoherent := h.toCoherent.eraseItem hfree
      toIndexed := ⟨h.edge_id, h.index_iff⟩
      item_id := fun hj => h.item_id (item_before_erase hj)
      container_isContainer := fun he hj => h.container_isContainer he (item_before_erase hj)
      acyclic := h.acyclic }

theorem Change.sound {k : Nat} (h : Change k c c') (hs : c.Sound) (ha : c.Accounted) :
    c'.Sound := by
  cases h with
  | retouch h => exact h.sound hs
  | link owner defer now hadd hi => exact hs.withEdge owner defer now ha.nextEdge_free hadd hi
  | unlink h =>
    obtain ⟨e, hu⟩ := unlinked_of_unlink? h
    exact hs.unlinked hu
  | flush => exact hs.flushDeferred
  | mark => exact hs.markEdge _ _ _
  | insert hn => exact hs.insertItem hn
  | erase hi hp hc => exact hs.eraseItem hi hp hc

/-- **Changes keep a cabinet sound**, as long as there are numbers for new edges. -/
theorem Changes.sound {n : Nat} (h : Changes n c c') (hs : c.Sound) (ha : c.Accounted)
    (hn : c.nextEdge.toNat + n < 2 ^ 64) : c'.Sound := by
  induction h with
  | refl => exact hs
  | @tail n k _ _ _ hc hk ih => exact hk.sound (ih hs ha (by omega)) (hc.accounted ha (by omega)).1

end Cabinet

end Filing
