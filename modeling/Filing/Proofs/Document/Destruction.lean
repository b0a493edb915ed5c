import Filing.Proofs.Document.RoundTrip

/-!
# Destroying what was read

To destroy an item its memberships are ended one by one, and then it is taken out.  A container must
be empty.  Anything else is taken to have no members, which is so in what was built, because adding
asks for a container; but the check of a document asks only that lists and edges agree, and not of
which kind the item is that lists a member.  So a document is accepted in which a plain item has
members, and when that item is destroyed their edges stay behind.

* `verify_detach`: ending memberships keeps the check, whatever numbers the edges bear.
* `destroy_verify_iff`: **what is left after an item was destroyed passes the check exactly if the
  item had no members**, and exactly then no edge refers to it.
* `accepted_destroy_iff`: the same for accepted documents.  `not_verify_destroyed_laden` is a case
  in which the check fails.
-/

namespace Filing

open Cabinet Relation

namespace Cabinet

variable {c c' : Cabinet} {id : ItemId} {i : Item} {settings : Settings} {epoch : Epoch}
  {text : String}

/-! ## Detaching -/

theorem detach_keeps {P : Cabinet → Prop}
    (hstep : ∀ {c c' : Cabinet} {container : ItemId} {e : EdgeId},
      c.Unlinked ⟨id, container⟩ e c' → P c → P c')
    (l : List ItemId) (c : Cabinet) (h : P c) : P ((detach id l).on c).2 := by
  induction l generalizing c with
  | nil => exact h
  | cons container rest ih =>
    cases hu : c.unlink? ⟨id, container⟩ with
    | none =>
      rw [on_detach_of_none hu]
      exact h
    | some c₁ =>
      rw [on_detach_of_some hu]
      obtain ⟨e, hu⟩ := unlinked_of_unlink? hu
      exact ih c₁ (hstep hu h)

theorem Unlinked.verify {key : Membership} {e : EdgeId} (hu : c.Unlinked key e c')
    (hv : c.verify = .ok ()) : c'.verify = .ok () := by
  obtain ⟨hsize, hc, ha⟩ := verify_eq_ok_iff.mp hv
  exact verify_eq_ok_iff.mpr ⟨hu.size_eq hc.toListed hsize, hu.coherent hc,
    ha.of_holds fun _ _ => hu.holds_before⟩

/-- **Detaching keeps the check.** -/
theorem verify_detach (hv : c.verify = .ok ()) (id : ItemId) (l : List ItemId) :
    ((detach id l).on c).2.verify = .ok () :=
  detach_keeps (P := fun c => c.verify = .ok ()) (fun hu => hu.verify) l c hv

theorem edge?_detach (h : c.Listed) (id : ItemId) (l : List ItemId) {e : EdgeId} {edge : Edge}
    (hne : edge.item ≠ id) :
    ((detach id l).on c).2.edge? e = some edge ↔ c.edge? e = some edge := by
  refine (detach_keeps
    (P := fun c' => c'.Listed ∧ (c'.edge? e = some edge ↔ c.edge? e = some edge)) ?_ l c
    ⟨h, Iff.rfl⟩).2
  rintro c₁ c₂ container e' hu ⟨hl, hiff⟩
  refine ⟨hu.listed hl, Iff.trans ⟨fun he => (hu.edge?_before he).2, fun he => ?_⟩ hiff⟩
  refine hu.edge?_of_ne (fun heq => hne ?_) he
  obtain ⟨edge', he', hitem⟩ := hu.edge_item hl
  subst heq
  cases he.symm.trans he'
  exact hitem

/-! ## Destroying -/

/-- **A successful destruction** detaches the item and takes it out; a container was empty. -/
theorem destroy_ok (hl : c.Listed) (h : (destroy id).on c = (.ok i, c')) :
    (i.isContainer = true → c.childEdges id = []) ∧ ∃ c₁,
      (detach id (c.parents id)).on c = (.ok (), c₁) ∧ c₁.item? id = some i ∧
        i.parentEdges = [] ∧ c' = c₁.eraseItem id := by
  cases hi : c.item? id with
  | none =>
    rw [on_destroy_of_none hi] at h
    cases h
  | some j =>
    rw [on_destroy_of_some hi] at h
    split at h
    · cases h
    · next hguard =>
      have hempty : j.isContainer = true → c.childEdges id = [] := fun hc => by
        simpa [hc] using hguard
      rcases hdet : (detach id (c.parents id)).on c with ⟨_ | _, c₁⟩
      · rw [hdet] at h
        cases h
      · obtain ⟨i', hi', _, hcont, _⟩ := detach_ok hdet hi
        obtain ⟨i'', hi'', hparents, _⟩ := detach_parents_ok hl hi hempty hdet
        cases hi'.symm.trans hi''
        rw [hdet] at h
        simp only [item_of_some hi'] at h
        cases h
        exact ⟨fun hc => hempty (hcont ▸ hc), c₁, rfl, hi', hparents, rfl⟩

theorem edge?_destroy (hv : c.verify = .ok ()) (h : (destroy id).on c = (.ok i, c')) {e : EdgeId}
    {edge : Edge} : c'.edge? e = some edge ↔ c.edge? e = some edge ∧ edge.item ≠ id := by
  have hc := (verify_eq_ok_iff.mp hv).2.1
  obtain ⟨_, c₁, hdet, hi, hparents, rfl⟩ := destroy_ok hc.toListed h
  have hc₁ : c₁.Coherent := by
    have := verify_detach hv id (c.parents id)
    rw [hdet] at this
    exact (verify_eq_ok_iff.mp this).2.1
  have hkept : ∀ {edge : Edge}, edge.item ≠ id →
      (c₁.edge? e = some edge ↔ c.edge? e = some edge) := fun hne => by
    have := edge?_detach hc.toListed id (c.parents id) (e := e) hne
    rwa [hdet] at this
  show c₁.edge? e = some edge ↔ _
  constructor
  · intro he
    have hne : edge.item ≠ id := by
      rintro rfl
      obtain ⟨j, hj, hm⟩ := hc₁.parent_listed he
      cases hi.symm.trans hj
      rw [hparents] at hm
      cases hm
    exact ⟨(hkept hne).mp he, hne⟩
  · rintro ⟨he, hne⟩
    exact (hkept hne).mpr he

/-- **What is left passes the check exactly if the item had no members**, and exactly then no edge
refers to the item. -/
theorem destroy_verify_iff (hv : c.verify = .ok ()) (h : (destroy id).on c = (.ok i, c')) :
    (c'.verify = .ok () ↔ c.children id = []) ∧
      ((∀ e edge, c'.edge? e = some edge → edge.item ≠ id ∧ edge.container ≠ id) ↔
        c.children id = []) := by
  obtain ⟨_, hc, ha⟩ := verify_eq_ok_iff.mp hv
  have hfree : (∀ e edge, c'.edge? e = some edge → edge.item ≠ id ∧ edge.container ≠ id) ↔
      c.children id = [] := by
    rw [List.eq_nil_iff_forall_not_mem]
    constructor
    · intro hf member hm
      obtain ⟨e, edge, he, rfl, rfl⟩ := hc.mem_children_iff.mp hm
      -- an item that is not its own member leaves the edges of its members behind
      have hne : edge.item ≠ edge.container := fun heq =>
        ha _ (.single ⟨e, edge, he, rfl, heq⟩)
      exact (hf e edge ((edge?_destroy hv h).mpr ⟨he, hne⟩)).2 rfl
    · intro hnone e edge he
      obtain ⟨he, hne⟩ := (edge?_destroy hv h).mp he
      exact ⟨hne, fun heq => hnone _ (hc.mem_children_iff.mpr ⟨e, edge, he, heq, rfl⟩)⟩
  refine ⟨?_, hfree⟩
  rw [← hfree]
  obtain ⟨_, c₁, hdet, hi, _, rfl⟩ := destroy_ok hc.toListed h
  constructor
  · intro hv' e edge he
    have hc' := (verify_eq_ok_iff.mp hv').2.1
    refine ⟨((edge?_destroy hv h).mp he).2, fun heq => ?_⟩
    obtain ⟨j, hj, _⟩ := hc'.child_listed he
    rw [item?_eraseItem, if_pos heq] at hj
    cases hj
  · intro hf
    have hv₁ := verify_detach hv id (c.parents id)
    rw [hdet] at hv₁
    obtain ⟨hsize₁, hc₁, ha₁⟩ := verify_eq_ok_iff.mp hv₁
    exact verify_eq_ok_iff.mpr ⟨hsize₁, hc₁.eraseItem hf, ha₁.of_holds fun _ _ => fun hh => hh⟩

/-- **Destroying an item of an accepted document.**  The item is gone; what is left passes the check
exactly if it had no members, and exactly then no edge refers to it.  Only what is no container can
have had members. -/
theorem accepted_destroy_iff (hload : settings.verifyOnLoad = true)
    (h : ofDocument text settings epoch = .ok c) (hd : (destroy id).on c = (.ok i, c')) :
    c'.item? id = none ∧ (c'.verify = .ok () ↔ c.children id = []) ∧
      ((∀ e edge, c'.edge? e = some edge → edge.item ≠ id ∧ edge.container ≠ id) ↔
        c.children id = []) ∧
      (c.children id ≠ [] → i.isContainer = false) := by
  have hv := (ofDocument_eq_ok_iff.mp h).2 hload
  have hl := (verify_eq_ok_iff.mp hv).2.1.toListed
  obtain ⟨hverify, hfree⟩ := destroy_verify_iff hv hd
  obtain ⟨hguard, c₁, _, _, _, rfl⟩ := destroy_ok hl hd
  refine ⟨by rw [item?_eraseItem, if_pos rfl], hverify, hfree, fun hne => ?_⟩
  by_contra hcont
  exact hne (by rw [children, hguard (by simpa using hcont), List.map_nil])

/-! ## A document that holds another -/

/-- A document that is a member of another document, with both lists right. -/
def laden : Cabinet :=
  let edges := .ofList [(⟨1⟩, .make ⟨1⟩ ⟨.ofNat 2, .ofNat 1⟩ .anonymous .start)]
  { empty .standard 0 with
    items := .ofList
      [(.ofNat 1, { Item.bare 1 .document [] with childEdges := [⟨1⟩] }),
        (.ofNat 2, { Item.bare 2 .document [] with parentEdges := [⟨1⟩] })]
    edges
    index := indexOf edges
    nextEdge := ⟨2⟩ }

/-- **The edge of its member stays behind.** -/
theorem not_verify_destroyed_laden :
    ofDocument laden.document laden.settings laden.epoch = .ok laden ∧
      (destroy (.ofNat 1)).on laden =
        (.ok { Item.bare 1 .document [] with childEdges := [⟨1⟩] },
          laden.eraseItem (.ofNat 1)) ∧
      (laden.eraseItem (.ofNat 1)).verify ≠ .ok () := by
  have hv : laden.verify = .ok () := by cbv
  have hload : ofDocument laden.document laden.settings laden.epoch = .ok laden :=
    (ofDocument_document rfl).mpr ⟨rfl, .inr hv⟩
  have hd : (destroy (.ofNat 1)).on laden =
      (.ok { Item.bare 1 .document [] with childEdges := [⟨1⟩] },
        laden.eraseItem (.ofNat 1)) := by cbv
  have hmember : laden.children (.ofNat 1) = [.ofNat 2] := by cbv
  refine ⟨hload, hd, fun hv => ?_⟩
  have hnone := (accepted_destroy_iff rfl hload hd).2.1.mp hv
  rw [hmember] at hnone
  cases hnone

end Cabinet

end Filing
