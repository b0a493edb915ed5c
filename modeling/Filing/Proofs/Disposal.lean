import Filing.Proofs.Requests

/-!
# Taking items out

To destroy an item its memberships are ended one after the other, and then the item goes.  Each of
the steps can fail, and what was changed before a failure stays changed.

* `Unlinked.takenOut`: to end one membership takes one edge out of every place where it is known
  (`TakenOut`), and what is left stays in its order.
* `Sound.on_detach`: **to end some memberships of an item does not fail**, and takes out their edges
  and nothing else.
* `Sound.on_destroy_of_not_occupied`: **an item without members goes with its edges**, and everything
  else is as it was (`Disposed`).
* `Request.destroy_answers`: after every run, a destruction fails before anything is changed or
  takes out the item and its edges.
-/

namespace Filing

open Cabinet

namespace Cabinet

variable {c c₁ c' : Cabinet} {id k : ItemId} {i : Item} {out : List EdgeId}

/-! ## Edges that go -/

/-- **Some edges were taken out**, of the lists of items, the deferred edges, the index and the
stored edges.  What is left is in the order in which it was. -/
structure TakenOut (c : Cabinet) (out : List EdgeId) (c' : Cabinet) : Prop where
  item? : ∀ k, c'.item? k = (c.item? k).map fun j =>
    { j with
      parentEdges := j.parentEdges.filter (· ∉ out)
      childEdges := j.childEdges.filter (· ∉ out) }
  edge? : ∀ e, c'.edge? e = if e ∈ out then none else c.edge? e
  find?_index : ∀ key e, c'.index.find? key = some e ↔ c.index.find? key = some e ∧ e ∉ out
  deferred : c'.deferred = c.deferred.filter (· ∉ out)
  settings : c'.settings = c.settings
  epoch : c'.epoch = c.epoch
  nextEdge : c'.nextEdge = c.nextEdge
  generation : c'.generation = c.generation + UInt64.ofNat out.length

theorem ite_erase_eq_filter {p : Prop} [Decidable p] {l : List EdgeId} {e : EdgeId} (hl : l.Nodup)
    (h : e ∈ l → p) : (if p then l.erase e else l) = l.filter (· ∉ [e]) := by
  have herase : (if p then l.erase e else l) = l.erase e := by
    split
    · rfl
    · next hp => rw [List.erase_of_not_mem fun hm => hp (h hm)]
  rw [herase, hl.erase_eq_filter]
  refine List.filter_congr fun e' _ => ?_
  by_cases he : e' = e <;> simp [he]

theorem filter_not_mem_append (l out out' : List EdgeId) :
    l.filter (· ∉ out ++ out') = (l.filter (· ∉ out)).filter (· ∉ out') := by
  rw [List.filter_filter]
  refine List.filter_congr fun e _ => ?_
  simp [Bool.and_comm]

theorem TakenOut.refl (c : Cabinet) : c.TakenOut [] c where
  item? k := by
    cases c.item? k <;> simp
  edge? e := by simp
  find?_index key e := by simp
  deferred := by simp
  settings := rfl
  epoch := rfl
  nextEdge := rfl
  generation := by simp

theorem TakenOut.trans {out' : List EdgeId} (h : c.TakenOut out c₁) (h' : c₁.TakenOut out' c') :
    c.TakenOut (out ++ out') c' where
  item? k := by
    rw [h'.item?, h.item?, Option.map_map]
    simp only [filter_not_mem_append]
    rfl
  edge? e := by
    rw [h'.edge?, h.edge?]
    by_cases he : e ∈ out <;> by_cases he' : e ∈ out' <;> simp [he, he']
  find?_index key e := by
    rw [h'.find?_index, h.find?_index, and_assoc, List.mem_append, not_or]
  deferred := by
    rw [h'.deferred, h.deferred, filter_not_mem_append]
  settings := h'.settings.trans h.settings
  epoch := h'.epoch.trans h.epoch
  nextEdge := h'.nextEdge.trans h.nextEdge
  generation := by
    rw [h'.generation, h.generation, List.length_append, UInt64.ofNat_add, UInt64.add_assoc]

theorem Unlinked.takenOut {key : Membership} {e : EdgeId} (h : c.Unlinked key e c') (hs : c.Sound)
    (hg : c'.generation = c.generation + 1) : c.TakenOut [e] c' := by
  obtain ⟨edge, he, hkey⟩ := hs.index_iff.mp h.named
  refine
    { item? := fun k => ?item
      edge? := fun e' => ?edge
      find?_index := fun key' e' => ?index
      deferred := ?deferred
      settings := h.settings
      epoch := h.epoch
      nextEdge := h.nextEdge
      generation := hg }
  case item =>
    rw [h.item?]
    cases hj : c.item? k with
    | none => rfl
    | some j =>
      -- only the ends of the edge list it
      have hparent : e ∈ j.parentEdges → k = key.item := by
        intro hm
        obtain ⟨edge', he', hk⟩ := hs.parent_stored hj hm
        cases he.symm.trans he'
        rw [← hk, ← hkey, Edge.key]
      have hchild : e ∈ j.childEdges → k = key.container := by
        intro hm
        obtain ⟨edge', he', hk⟩ := hs.child_stored hj hm
        cases he.symm.trans he'
        rw [← hk, ← hkey, Edge.key]
      rw [Option.map_some, Option.map_some, ite_erase_eq_filter (hs.parent_nodup hj) hparent,
        ite_erase_eq_filter (hs.child_nodup hj) hchild]
  case edge =>
    rw [h.edge?]
    simp only [List.mem_singleton]
  case index =>
    rw [h.find?_index, List.mem_singleton]
    by_cases hk : key' = key
    · rw [if_pos hk, hk, h.named]
      simp [eq_comm]
    · rw [if_neg hk, iff_self_and]
      intro hx
      obtain ⟨edge', he', hkey'⟩ := hs.index_iff.mp hx
      rintro rfl
      cases he.symm.trans he'
      exact hk (hkey'.symm.trans hkey)
  case deferred =>
    rw [← ite_erase_eq_filter (p := e ∈ c.deferred) hs.deferred_nodup id]
    rcases h.on_container with ⟨⟨j, hj, hm⟩, hd⟩ | ⟨_, hm, hd⟩
    · rw [hd, if_neg (hs.child_not_deferred hj hm)]
    · rw [hd, if_pos hm]

/-- **To end some memberships of an item does not fail**, and takes out their edges. -/
theorem Sound.on_detach (hs : c.Sound) (hn : out.Nodup)
    (hout : ∀ e ∈ out, ∃ edge, c.edge? e = some edge ∧ edge.item = id) :
    ∃ c', (detach id ((out.filterMap c.edge?).map (·.container))).on c = (.ok (), c') ∧
      c.TakenOut out c' := by
  induction out generalizing c with
  | nil => exact ⟨c, rfl, .refl c⟩
  | cons e rest ih =>
    obtain ⟨hnot, hn⟩ := List.nodup_cons.mp hn
    obtain ⟨edge, he, rfl⟩ := hout e List.mem_cons_self
    obtain ⟨c₁, hunlink, hu⟩ := hs.exists_unlinked (hs.index_iff.mpr ⟨edge, he, rfl⟩) he rfl
    have hsame : ∀ e' ∈ rest, c₁.edge? e' = c.edge? e' := by
      intro e' hm
      rw [hu.edge?, if_neg]
      rintro rfl
      exact hnot hm
    obtain ⟨c', hdet, htaken⟩ := ih (hs.unlinked hu) hn fun e' hm => by
      rw [hsame e' hm]
      exact hout e' (List.mem_cons_of_mem _ hm)
    rw [List.filterMap_congr hsame] at hdet
    refine ⟨c', ?_, (hu.takenOut hs (generation_of_unlink? hunlink)).trans htaken⟩
    rw [List.filterMap_cons, he]
    exact (on_detach_of_some hunlink).trans hdet

/-! ## Listings -/

namespace TakenOut

variable (h : c.TakenOut out c') (hx : c.Indexed)

include h hx

theorem filterMap_edge? (l : List EdgeId) :
    (l.filter (· ∉ out)).filterMap c'.edge? = (l.filterMap c.edge?).filter (·.id ∉ out) := by
  induction l with
  | nil => rfl
  | cons e rest ih =>
    by_cases hm : e ∈ out
    · rw [List.filter_cons_of_neg (by simpa using hm), ih, List.filterMap_cons]
      cases he : c.edge? e with
      | none => rfl
      | some edge =>
        rw [List.filter_cons_of_neg]
        simpa [hx.edge_id he] using hm
    · rw [List.filter_cons_of_pos (by simpa using hm), List.filterMap_cons, List.filterMap_cons,
        h.edge?, if_neg hm, ih]
      cases he : c.edge? e with
      | none => rfl
      | some edge =>
        rw [List.filter_cons_of_pos]
        simpa [hx.edge_id he] using hm

theorem parentEdges (k : ItemId) :
    c'.parentEdges k = (c.parentEdges k).filter (·.id ∉ out) := by
  rw [Cabinet.parentEdges, Cabinet.parentEdges, h.item?]
  cases c.item? k with
  | none => rfl
  | some j => exact h.filterMap_edge? hx j.parentEdges

theorem childEdges (k : ItemId) : c'.childEdges k = (c.childEdges k).filter (·.id ∉ out) := by
  rw [Cabinet.childEdges, Cabinet.childEdges, h.item?, h.deferred]
  cases c.item? k with
  | none => rfl
  | some j =>
    rw [List.filter_append]
    refine congrArg₂ (· ++ ·) (h.filterMap_edge? hx j.childEdges) ?_
    rw [h.filterMap_edge? hx, List.filter_filter, List.filter_filter]
    exact List.filter_congr fun edge _ => Bool.and_comm ..

end TakenOut

/-! ## An item that goes -/

/-- A container with a member, listed or deferred. -/
def Occupied (c : Cabinet) (id : ItemId) : Prop :=
  ∃ i, c.item? id = some i ∧ i.isContainer = true ∧
    (i.childEdges ≠ [] ∨ ∃ e ∈ c.deferred, ∃ edge, c.edge? e = some edge ∧ edge.container = id)

/-- **The item `i`, stored as `id`, was taken out together with its edges**, and everything else is
as it was. -/
structure Disposed (c : Cabinet) (id : ItemId) (i : Item) (c' : Cabinet) : Prop where
  item? : ∀ k, c'.item? k = if k = id then none else
    (c.item? k).map fun j => { j with childEdges := j.childEdges.filter (· ∉ i.parentEdges) }
  edge? : ∀ e, c'.edge? e = if e ∈ i.parentEdges then none else c.edge? e
  find?_index : ∀ key, c'.index.find? key = if key.item = id then none else c.index.find? key
  deferred : c'.deferred = c.deferred.filter (· ∉ i.parentEdges)
  settings : c'.settings = c.settings
  epoch : c'.epoch = c.epoch
  nextEdge : c'.nextEdge = c.nextEdge
  generation : c'.generation = c.generation + UInt64.ofNat i.parentEdges.length + 1
  /-- Every other item is a member of what it was a member of. -/
  parentEdges : ∀ k, k ≠ id → c'.parentEdges k = c.parentEdges k
  /-- Every other container has the edges of its other members, in their order. -/
  childEdges : ∀ k, k ≠ id → c'.childEdges k = (c.childEdges k).filter (·.item ≠ id)

theorem Disposed.children (h : c.Disposed id i c') (hk : k ≠ id) :
    c'.children k = (c.children k).filter (· ≠ id) := by
  rw [Cabinet.children, Cabinet.children, h.childEdges k hk, List.filter_map]
  rfl

namespace Sound

theorem mem_parentEdges_iff_item (hs : c.Sound) (hi : c.item? id = some i) {e : EdgeId}
    {edge : Edge} (he : c.edge? e = some edge) : e ∈ i.parentEdges ↔ edge.item = id := by
  constructor
  · intro hm
    obtain ⟨edge', he', hid⟩ := hs.parent_stored hi hm
    cases he.symm.trans he'
    exact hid
  · rintro rfl
    obtain ⟨j, hj, hm⟩ := hs.parent_listed he
    cases hi.symm.trans hj
    exact hm

theorem holds_iff_of_disposed (hs : c.Sound) (hi : c.item? id = some i) (h : c.Disposed id i c')
    {p x : ItemId} : c'.Holds p x ↔ c.Holds p x ∧ x ≠ id := by
  constructor
  · rintro ⟨e, edge, he, rfl, rfl⟩
    rw [h.edge?] at he
    split at he
    · cases he
    · next hnot =>
      exact ⟨⟨e, edge, he, rfl, rfl⟩, fun hid =>
        hnot ((hs.mem_parentEdges_iff_item hi he).mpr hid)⟩
  · rintro ⟨⟨e, edge, he, rfl, rfl⟩, hne⟩
    refine ⟨e, edge, ?_, rfl, rfl⟩
    rw [h.edge?, if_neg fun hm => hne ((hs.mem_parentEdges_iff_item hi he).mp hm), he]

theorem not_mem_parentEdges_of_ne (hs : c.Sound) (hi : c.item? id = some i) {j : Item} {e : EdgeId}
    (hj : c.item? k = some j) (hk : k ≠ id) (hm : e ∈ j.parentEdges) : e ∉ i.parentEdges := by
  intro hm'
  obtain ⟨edge, he, hid⟩ := hs.parent_stored hj hm
  exact hk (hid.symm.trans ((hs.mem_parentEdges_iff_item hi he).mp hm'))

theorem disposed (hs : c.Sound) (hi : c.item? id = some i) (h : c.TakenOut i.parentEdges c₁) :
    c.Disposed id i (c₁.eraseItem id) where
  item? k := by
    rw [item?_eraseItem]
    by_cases hk : k = id
    · rw [if_pos hk, if_pos hk]
    · rw [if_neg hk, if_neg hk, h.item?]
      cases hj : c.item? k with
      | none => rfl
      | some j =>
        have hkept : j.parentEdges.filter (· ∉ i.parentEdges) = j.parentEdges :=
          List.filter_eq_self.mpr fun e hm =>
            decide_eq_true (hs.not_mem_parentEdges_of_ne hi hj hk hm)
        rw [Option.map_some, Option.map_some, hkept]
  edge? := h.edge?
  find?_index key := by
    show c₁.index.find? key = _
    refine Option.ext fun e => ?_
    rw [h.find?_index]
    by_cases hk : key.item = id
    · rw [if_pos hk]
      refine iff_of_false ?_ nofun
      rintro ⟨hx, hnot⟩
      obtain ⟨edge, he, rfl⟩ := hs.index_iff.mp hx
      exact hnot ((hs.mem_parentEdges_iff_item hi he).mpr hk)
    · rw [if_neg hk, and_iff_left_iff_imp]
      intro hx hm
      obtain ⟨edge, he, rfl⟩ := hs.index_iff.mp hx
      exact hk ((hs.mem_parentEdges_iff_item hi he).mp hm)
  deferred := h.deferred
  settings := h.settings
  epoch := h.epoch
  nextEdge := h.nextEdge
  generation := congrArg (· + 1) h.generation
  parentEdges k hk := by
    have hsame : (c₁.eraseItem id).parentEdges k = c₁.parentEdges k := by
      rw [Cabinet.parentEdges, Cabinet.parentEdges, item?_eraseItem, if_neg hk]
      rfl
    rw [hsame, h.parentEdges hs.toIndexed]
    refine List.filter_eq_self.mpr fun edge hm => decide_eq_true ?_
    obtain ⟨j, e, hj, hmem, he⟩ := mem_parentEdges_iff.mp hm
    rw [hs.edge_id he]
    exact hs.not_mem_parentEdges_of_ne hi hj hk hmem
  childEdges k hk := by
    have hsame : (c₁.eraseItem id).childEdges k = c₁.childEdges k := by
      rw [Cabinet.childEdges, Cabinet.childEdges, item?_eraseItem, if_neg hk]
      rfl
    rw [hsame, h.childEdges hs.toIndexed]
    refine List.filter_congr fun edge hm => ?_
    obtain ⟨e, he, _⟩ := hs.mem_childEdges_iff.mp hm
    rw [hs.edge_id he, decide_eq_decide, hs.mem_parentEdges_iff_item hi he]

theorem occupied_iff (hs : c.Sound) (hi : c.item? id = some i) :
    c.Occupied id ↔ i.isContainer = true ∧ c.childEdges id ≠ [] := by
  constructor
  · rintro ⟨j, hj, hcont, hmember⟩
    cases hi.symm.trans hj
    refine ⟨hcont, ?_⟩
    rcases hmember with hlist | ⟨e, hm, edge, he, hid⟩
    · obtain ⟨e, hm⟩ := List.exists_mem_of_ne_nil _ hlist
      obtain ⟨edge, he, hid⟩ := hs.child_stored hi hm
      exact List.ne_nil_of_mem (hs.mem_childEdges_iff.mpr ⟨e, he, hid⟩)
    · exact List.ne_nil_of_mem (hs.mem_childEdges_iff.mpr ⟨e, he, hid⟩)
  · rintro ⟨hcont, hne⟩
    refine ⟨i, hi, hcont, ?_⟩
    obtain ⟨edge, hm⟩ := List.exists_mem_of_ne_nil _ hne
    obtain ⟨j, e, hj, he, hm | ⟨hm, hid⟩⟩ := Cabinet.mem_childEdges_iff.mp hm
    · cases hi.symm.trans hj
      exact .inl (List.ne_nil_of_mem hm)
    · exact .inr ⟨e, hm, edge, he, hid⟩

theorem not_holds_of_not_occupied (hs : c.Sound) (hi : c.item? id = some i)
    (hfree : ¬c.Occupied id) (x : ItemId) : ¬c.Holds id x := by
  intro hx
  refine hfree ((hs.occupied_iff hi).mpr ⟨hs.isContainer hx hi, fun hnil => ?_⟩)
  have hm := hs.mem_children_iff.mpr hx
  rw [Cabinet.children, hnil] at hm
  cases hm

/-- **An item without members goes with its edges.** -/
theorem on_destroy_of_not_occupied (hs : c.Sound) (hi : c.item? id = some i)
    (hfree : ¬c.Occupied id) :
    ∃ c', (destroy id).on c = (.ok i.detached, c') ∧ c.Disposed id i c' := by
  have hempty : i.isContainer = true → c.childEdges id = [] := by
    intro hcont
    by_contra hne
    exact hfree ((hs.occupied_iff hi).mpr ⟨hcont, hne⟩)
  have hguard : (i.isContainer && !(c.childEdges id).isEmpty) = false := by
    cases hcont : i.isContainer with
    | false => rfl
    | true => rw [hempty hcont]; rfl
  obtain ⟨c₁, hdet, htaken⟩ :=
    hs.on_detach (hs.parent_nodup hi) fun _ hm => hs.parent_stored hi hm
  have hparents : c.parents id = (i.parentEdges.filterMap c.edge?).map (·.container) := by
    rw [parents, Cabinet.parentEdges, hi]
  -- it lists no edge when it goes
  have hitem : c₁.item? id = some i.detached := by
    rw [htaken.item?, hi, Option.map_some, hs.childEdges_eq_nil hi hempty]
    simp [Item.detached]
  refine ⟨c₁.eraseItem id, ?_, hs.disposed hi htaken⟩
  rw [on_destroy_of_some hi, hguard, if_neg Bool.false_ne_true, hparents, hdet]
  simp only [item_of_some hitem]

theorem on_destroy_of_occupied (hs : c.Sound) (h : c.Occupied id) :
    (destroy id).on c = (.error (.notEmpty id), c) := by
  have ⟨i, hi, _⟩ := h
  obtain ⟨hcont, hne⟩ := (hs.occupied_iff hi).mp h
  rw [on_destroy_of_some hi, if_pos]
  simpa [hcont] using hne

end Sound

end Cabinet

/-! ## Runs -/

namespace Request

variable {settings : Settings} {epoch : Epoch} {c : Cabinet} {l : List Request}

/-- **A destruction fails before anything is changed, or takes out the item and its edges**, in every
cabinet that a run from an empty one comes to.  It fails exactly if there is no such item or if it
is a container with a member, listed or deferred; otherwise the item goes, and nothing else than its
edges with it. -/
theorem destroy_answers (hl : AllAllowed Fresh l (.empty settings epoch))
    (hn : linksAll l (.empty settings epoch) < 2 ^ 64 - 1)
    (hc : afterAll l (.empty settings epoch) = c) (id : ItemId) :
    (c.item? id = none → (destroy id).on c = (.error (.itemNotFound id), c)) ∧
    (c.Occupied id → (destroy id).on c = (.error (.notEmpty id), c)) ∧
    ∀ i, c.item? id = some i → ¬c.Occupied id →
      ∃ c', (destroy id).on c = (.ok i.detached, c') ∧ c.Disposed id i c' := by
  have hs : c.Sound := hc ▸ sound_afterAll hl hn
  exact ⟨on_destroy_of_none, hs.on_destroy_of_occupied, fun _ => hs.on_destroy_of_not_occupied⟩

/-- A document in a folder that lists it and in one that does not list it yet. -/
def filedAndDeferred : List Request :=
  [.insert (.bare 1 (.container .folder) []), .insert (.bare 2 (.container .folder) []),
    .insert (.bare 3 .document []), .insert (.bare 4 .document []),
    .add (.ofNat 1) (.ofNat 3) (.bare .null), .add (.ofNat 1) (.ofNat 4) (.bare .null),
    .add (.ofNat 2) (.ofNat 3) { Addition.bare .null with defer := true }].map operation

/-- Neither folder can be destroyed, and the document can.  Then the one folder has its other
member, and the other one has none and can be destroyed as well. -/
theorem destroy_answers_filedAndDeferred : ∃ c c' i,
    afterAll filedAndDeferred (.empty .standard 0) = c ∧
    (destroy (.ofNat 5)).on c = (.error (.itemNotFound (.ofNat 5)), c) ∧
    (destroy (.ofNat 1)).on c = (.error (.notEmpty (.ofNat 1)), c) ∧
    (destroy (.ofNat 2)).on c = (.error (.notEmpty (.ofNat 2)), c) ∧
    c.item? (.ofNat 3) = some i ∧ i.parentEdges = [⟨1⟩, ⟨3⟩] ∧ c.deferred = [⟨3⟩] ∧
    (destroy (.ofNat 3)).on c = (.ok i.detached, c') ∧ c'.deferred = [] ∧
    c'.children (.ofNat 1) = [.ofNat 4] ∧ c'.children (.ofNat 2) = [] := by
  have hl : AllAllowed Fresh filedAndDeferred (.empty .standard 0) :=
    ⟨rfl, rfl, rfl, rfl, trivial, trivial, trivial, trivial⟩
  have hn : linksAll filedAndDeferred (.empty .standard 0) ≤ 7 := linksAll_le_length ..
  have hanswers := destroy_answers hl (by omega) rfl
  obtain ⟨first, hfirst, hmembers⟩ : ∃ i, (afterAll filedAndDeferred (.empty .standard 0)).item?
      (.ofNat 1) = some i ∧ (i.isContainer, i.childEdges) = (true, [⟨1⟩, ⟨2⟩]) :=
    Option.map_eq_some_iff.mp (by cbv)
  obtain ⟨second, hsecond, hcont⟩ : ∃ i, (afterAll filedAndDeferred (.empty .standard 0)).item?
      (.ofNat 2) = some i ∧ i.isContainer = true := Option.map_eq_some_iff.mp (by cbv)
  obtain ⟨i, hi, hparents⟩ : ∃ i, (afterAll filedAndDeferred (.empty .standard 0)).item?
      (.ofNat 3) = some i ∧ (i.isContainer, i.parentEdges) = (false, [⟨1⟩, ⟨3⟩]) :=
    Option.map_eq_some_iff.mp (by cbv)
  have hdeferred : (afterAll filedAndDeferred (.empty .standard 0)).deferred = [⟨3⟩] := by cbv
  have hedge : (afterAll filedAndDeferred (.empty .standard 0)).edge? ⟨3⟩ =
      some (.make ⟨3⟩ ⟨.ofNat 3, .ofNat 2⟩ .anonymous .start) := by cbv
  have hchildren : (afterAll filedAndDeferred (.empty .standard 0)).children (.ofNat 1) =
      [.ofNat 3, .ofNat 4] := by cbv
  have hchildren' : (afterAll filedAndDeferred (.empty .standard 0)).children (.ofNat 2) =
      [.ofNat 3] := by cbv
  obtain ⟨hcont₁, hlist⟩ := Prod.mk.inj hmembers
  obtain ⟨hdoc, hlisted⟩ := Prod.mk.inj hparents
  obtain ⟨c', hon, hdisposed⟩ := (hanswers (.ofNat 3)).2.2 i hi (by
    rintro ⟨j, hj, hcont, _⟩
    cases hi.symm.trans hj
    rw [hdoc] at hcont
    cases hcont)
  refine ⟨_, c', i, rfl, (hanswers (.ofNat 5)).1 (by cbv), (hanswers (.ofNat 1)).2.1 ?_,
    (hanswers (.ofNat 2)).2.1 ?_, hi, hlisted, hdeferred, hon, ?_, ?_, ?_⟩
  · exact ⟨first, hfirst, hcont₁, .inl (hlist ▸ List.cons_ne_nil _ _)⟩
  · exact ⟨second, hsecond, hcont, .inr ⟨⟨3⟩, by rw [hdeferred]; exact List.mem_cons_self, _,
      hedge, rfl⟩⟩
  · rw [hdisposed.deferred, hdeferred, hlisted]
    decide
  · rw [hdisposed.children (by decide), hchildren]
    decide
  · rw [hdisposed.children (by decide), hchildren']
    decide

end Request

end Filing
