import Filing.Proofs.Document.Destruction
import Filing.Proofs.Inheritance.Withdrawal
import Filing.Proofs.Membership

/-!
# Deletion marks

A membership bears a deletion mark, and an item bears one of its own.  Either is what the last
request said of it: nothing else that happens to the item, to the container, to other memberships of
either or to the lists that name the edge moves a mark.

* `Request.carried_after`: **a request carries every edge over as it is, but for the mark that it
  sets** (`marked`), unless it asks to end the membership (`Ends`); and an edge that it makes is
  unmarked.
* `Request.sets_after`: what was last said of an item is what its own mark says.
* `Request.marks_as_told`: **in every run the marks are what was last said of them**, a member is
  visible exactly if neither mark is set, and a request about something else changes nothing of it.
-/

namespace Filing

open Cabinet

/-- The edge without a mark. -/
def Edge.unmarked (edge : Edge) : Edge := { edge with deleted := false, deletedAt := none }

namespace Cabinet

variable {c c₁ c' : Cabinet}

/-! ## Visible members -/

theorem Indexed.edgeBetween?_eq_some_iff (h : c.Indexed) {key : Membership} {edge : Edge} :
    c.edgeBetween? key = some edge ↔ edge.key = key ∧ c.edge? edge.id = some edge := by
  constructor
  · intro hb
    obtain ⟨e, hx, he⟩ := Option.bind_eq_some_iff.mp hb
    obtain ⟨edge', he', hkey⟩ := h.index_iff.mp hx
    cases he.symm.trans he'
    exact ⟨hkey, by rw [h.edge_id he, he]⟩
  · rintro ⟨rfl, he⟩
    exact h.edgeBetween?_key he

theorem Indexed.isDeletedIn_eq (h : c.Indexed) {e : EdgeId} {edge : Edge}
    (he : c.edge? e = some edge) : c.isDeletedIn ⟨edge.item, edge.container⟩ = edge.deleted := by
  have hb : c.edgeBetween? ⟨edge.item, edge.container⟩ = some edge := h.edgeBetween?_key he
  rw [isDeletedIn, hb, Option.any_some]

/-- **A member is visible if neither the membership nor the item is marked.** -/
theorem Sound.mem_visibleChildren_iff (h : c.Sound) {id p : ItemId} :
    id ∈ c.visibleChildren p ↔ id ∈ c.children p ∧ c.isDeletedIn ⟨id, p⟩ = false ∧
      ∃ i, c.item? id = some i ∧ i.deleted = false := by
  have hmark : ∀ {edge}, edge ∈ c.childEdges p → c.isDeletedIn ⟨edge.item, p⟩ = edge.deleted := by
    intro edge hm
    obtain ⟨e, he, rfl⟩ := h.mem_childEdges_iff.mp hm
    exact h.isDeletedIn_eq he
  have hitem : ∀ {id}, (c.item? id).any (fun i => !i.deleted) = true ↔
      ∃ i, c.item? id = some i ∧ i.deleted = false := by
    intro id
    cases c.item? id <;> simp
  rw [visibleChildren, children, List.mem_map, List.mem_map]
  simp only [List.mem_filter, Bool.and_eq_true, Bool.not_eq_true', hitem]
  constructor
  · rintro ⟨edge, ⟨hm, hdel, hown⟩, rfl⟩
    exact ⟨⟨edge, hm, rfl⟩, (hmark hm).trans hdel, hown⟩
  · rintro ⟨⟨edge, hm, rfl⟩, hdel, hown⟩
    exact ⟨edge, ⟨hm, (hmark hm).symm.trans hdel, hown⟩, rfl⟩

theorem Sound.mem_visibleChildren_iff_of_edge (h : c.Sound) {e : EdgeId} {edge : Edge}
    (he : c.edge? e = some edge) {i : Item} (hi : c.item? edge.item = some i) :
    edge.item ∈ c.visibleChildren edge.container ↔ edge.deleted = false ∧ i.deleted = false := by
  have hm : edge.item ∈ c.children edge.container := h.mem_children_iff.mpr ⟨e, edge, he, rfl, rfl⟩
  rw [h.mem_visibleChildren_iff, h.isDeletedIn_eq he, hi, and_iff_right hm]
  simp

/-! ## Edges that are carried over -/

/-- **Edges are carried over.**  An edge that is stored afterwards comes from one that was stored
before, or it is a new one, unmarked and with the next number; and an edge is lost only if its
membership may end. -/
structure Carried (c : Cabinet) (f : Edge → Edge) (ends : Membership → Prop) (c' : Cabinet) :
    Prop where
  source : ∀ {e edge'}, c'.edge? e = some edge' →
    (∃ edge, c.edge? e = some edge ∧ edge' = f edge) ∨ e = c.nextEdge ∧ edge'.unmarked = edge'
  kept : ∀ {e edge}, c.edge? e = some edge → ¬ends edge.key → c'.edge? e = some (f edge)

namespace Carried

variable {f : Edge → Edge} {ends : Membership → Prop}

theorem of_edge? (h : ∀ e, c'.edge? e = (c.edge? e).map f) : c.Carried f ends c' where
  source {e edge'} he := by
    obtain ⟨edge, hs, rfl⟩ := Option.map_eq_some_iff.mp ((h e).symm.trans he)
    exact .inl ⟨edge, hs, rfl⟩
  kept {e edge} he _ := by
    rw [h, he]
    rfl

theorem of_same (h : ∀ e, c'.edge? e = c.edge? e) : c.Carried id ends c' :=
  of_edge? fun e => by rw [h, Option.map_id_fun, id]

theorem of_edge?_iff (h : ∀ e edge, c'.edge? e = some edge ↔
    c.edge? e = some edge ∧ ¬ends edge.key) : c.Carried id ends c' where
  source he := .inl ⟨_, ((h _ _).mp he).1, rfl⟩
  kept he hk := (h _ _).mpr ⟨he, hk⟩

theorem trans {ends' : Membership → Prop} (h : c.Carried id ends c₁)
    (hnext : c₁.nextEdge = c.nextEdge) (h' : c₁.Carried id ends' c')
    (hends : ∀ key, ends' key → ends key) : c.Carried id ends c' where
  source {e edge'} he := by
    rcases h'.source he with ⟨edge, he, rfl⟩ | ⟨rfl, hnew⟩
    · exact h.source he
    · exact .inr ⟨hnext, hnew⟩
  kept he hk := h'.kept (h.kept he hk) fun hk' => hk (hends _ hk')

end Carried

theorem carried_add (hn : c.edge? c.nextEdge = none) (parent child : ItemId) (a : Addition) :
    c.Carried id (fun _ => False) ((add parent child a).on c).2 := by
  rcases on_add_cases parent child a c with hsame | ⟨_, _, hr⟩
  · rw [hsame]
    exact .of_same fun _ => rfl
  · constructor
    · intro e edge' he
      rw [hr.edge?, edge?_withEdge] at he
      split at he
      · next heq =>
        cases he
        exact .inr ⟨heq, rfl⟩
      · exact .inl ⟨edge', he, rfl⟩
    · intro e edge he _
      rw [hr.edge?, edge?_withEdge, if_neg (ne_nextEdge hn he), he, id]

theorem Indexed.carried_remove (h : c.Indexed) (parent child : ItemId) (p : Propagation) :
    c.Carried id (· = ⟨child, parent⟩) ((remove parent child p).on c).2 := by
  cases hu : c.unlink? ⟨child, parent⟩ with
  | none =>
    rw [on_remove_of_none hu]
    exact .of_same fun _ => rfl
  | some c₁ =>
    rw [on_remove_of_some hu, Edit.on_bind_pure]
    obtain ⟨e, hu⟩ := unlinked_of_unlink? hu
    refine .of_edge?_iff fun e' edge => ?_
    rw [(p.retouched_onRemove parent child c₁).edge?]
    exact hu.edge?_eq_some_iff h

theorem Orderly.carried_move (h : c.Orderly) (item origin target : ItemId) (acting : Principal)
    (unrestricted : Bool) (now : Timestamp) :
    c.Carried id (· = ⟨item, origin⟩)
      ((move item origin target acting unrestricted now).on c).2 := by
  have hremoved := h.toIndexed.carried_remove origin item c.settings.movePolicy
  rcases on_move_cases item origin target acting unrestricted now c with hm | hm | hm <;> rw [hm]
  · exact .of_same fun _ => rfl
  · exact hremoved
  · have hchanges := changes_remove origin item c.settings.movePolicy c
    have hfree := (hchanges.orderly h).nextEdge_free
    exact hremoved.trans hchanges.nextEdge (carried_add hfree ..) fun _ hk => hk.elim

theorem Listed.carried_destroy (h : c.Listed) (x : ItemId) :
    c.Carried id (·.item = x) ((destroy x).on c).2 := by
  have hdetach : c.Carried id (·.item = x) ((detach x (c.parents x)).on c).2 := by
    constructor
    · intro e edge
      refine detach_keeps (P := fun c' => c'.edge? e = some edge → _)
        (fun hu hbefore he => hbefore (hu.edge?_before he).2) _ c fun he => .inl ⟨edge, he, rfl⟩
    · intro e edge he hk
      exact (edge?_detach h x (c.parents x) hk).mpr he
  rcases on_destroy_cases x c with hd | ⟨_, _, _, hd | ⟨c₁, hdet, hd⟩⟩ <;> rw [hd]
  · exact .of_same fun _ => rfl
  · exact hdetach
  · rw [hdet] at hdetach
    exact ⟨hdetach.source, hdetach.kept⟩

/-- **A mark is set on the edge of its membership**, and on no other. -/
theorem Sound.edge?_mark (h : c.Sound) (key : Membership) (deleted : Bool) (now : Timestamp)
    (e : EdgeId) : ((Operation.mark key deleted now).after c).edge? e =
      (c.edge? e).map fun edge => if edge.key = key then edge.mark deleted now else edge := by
  cases hx : c.index.find? key with
  | none =>
    have hother : ∀ {edge}, c.edge? e = some edge → edge.key ≠ key := by
      rintro edge he rfl
      rw [h.index_iff.mpr ⟨edge, he, rfl⟩] at hx
      cases hx
    have hsame : (Operation.mark key deleted now).after c = c := by
      rw [Operation.after_mark_eq]
      rcases c.markDeletedIn_cases key deleted now with ⟨x, hm⟩ | hm | ⟨e, _, hs, _⟩
      · rw [hm]
      · rw [hm]
      · cases hx.symm.trans hs
    rw [hsame]
    cases he : c.edge? e with
    | none => rfl
    | some edge => rw [Option.map_some, if_neg (hother he)]
  | some e₀ =>
    obtain ⟨edge₀, he₀, rfl⟩ := h.index_iff.mp hx
    obtain ⟨i, hi, _⟩ := h.parent_listed he₀
    obtain ⟨j, hj, _⟩ := h.child_listed he₀
    rw [Operation.after_mark_eq, markDeletedIn_of_edge hi hj hx he₀]
    show (c.markEdge e₀ deleted now).edge? e = _
    rw [edge?_markEdge]
    cases he : c.edge? e with
    | none => simp
    | some edge =>
      have hiff : edge.key = edge₀.key ↔ e = e₀ := by
        constructor
        · exact h.eq_of_key_eq he he₀
        · rintro rfl
          cases he.symm.trans he₀
          rfl
      simp only [Option.map_some, hiff]
      split <;> rfl

/-! ## Marks of items -/

/-- The same items are stored, with the same marks. -/
def SameMarks (c c' : Cabinet) : Prop :=
  ∀ x, (c'.item? x).map Item.deleted = (c.item? x).map Item.deleted

theorem SameMarks.steady : Steady SameMarks where
  refl _ _ := rfl
  trans h h' x := (h' x).trans (h x)
  share c x kind := by
    rw [share]
    split
    · exact fun _ => rfl
    · refine fun y => map_item?_modifyItem c x y _ fun i => ?_
      rw [Item.withContainerKind]
      split <;> rfl
  onAdd p parent child c := (p.regranted_onAdd parent child c).map_item? fun _ => rfl
  unlink? h := by
    obtain ⟨e, hu⟩ := unlinked_of_unlink? h
    exact map_item?_of_map hu.item? fun _ _ => rfl
  onRemove p parent child c := (p.regranted_onRemove parent child c).map_item? fun _ => rfl
  withEdge c key owner defer now :=
    map_item?_of_map (item?_withEdge c key owner defer now) fun _ _ => rfl

end Cabinet

/-! ## Requests -/

namespace Request

/-- What a request says of the mark of a membership. -/
def marks (key : Membership) : Request → Option Bool
  | operation (.mark key' deleted _) => if key = key' then some deleted else none
  | _ => none

/-- What a request says of the mark of an item. -/
def sets (x : ItemId) : Request → Option Bool
  | operation (.insert item) => if x = item.id then some item.deleted else none
  | operation (.setDeleted id deleted) => if x = id then some deleted else none
  | _ => none

/-- The request asks for something that ends a membership. -/
def Ends : Request → Membership → Prop
  | operation (.remove parent child _), key => key = ⟨child, parent⟩
  | operation (.move item origin _ _ _ _), key => key = ⟨item, origin⟩
  | operation (.destroy id), key => key.item = id
  | _, _ => False

/-- What a request makes of an edge that it does not take out. -/
def marked : Request → Edge → Edge
  | operation (.mark key deleted now), edge =>
    if edge.key = key then edge.mark deleted now else edge
  | _, edge => edge

variable {c : Cabinet} {r : Request}

theorem marked_cases (r : Request) (edge : Edge) :
    (r.marks edge.key = none ∧ r.marked edge = edge) ∨
      ∃ deleted now, r.marks edge.key = some deleted ∧ r.marked edge = edge.mark deleted now := by
  cases r with
  | operation op =>
    cases op with
    | mark key deleted now =>
      rw [marks, marked]
      split
      · exact .inr ⟨deleted, now, rfl, rfl⟩
      · exact .inl ⟨rfl, rfl⟩
    | _ => exact .inl ⟨rfl, rfl⟩
  | _ => exact .inl ⟨rfl, rfl⟩

/-- **A request carries every edge over**, but for the mark that it sets, unless it asks to end the
membership. -/
theorem carried_after (h : c.Orderly) (r : Request) : c.Carried r.marked r.Ends (r.after c) := by
  cases r with
  | configure settings => exact .of_same fun _ => rfl
  | onAdd p parent child =>
    rw [after, perform, Edit.on_bind_pure]
    exact .of_same (p.retouched_onAdd parent child c).edge?
  | onRemove p parent child =>
    rw [after, perform, Edit.on_bind_pure]
    exact .of_same (p.retouched_onRemove parent child c).edge?
  | operation op =>
    show c.Carried _ _ (op.after c)
    cases op with
    | insert item => exact .of_same fun _ => rfl
    | add parent child a =>
      rw [Operation.after_add]
      exact carried_add h.nextEdge_free parent child a
    | remove parent child p =>
      rw [Operation.after_remove]
      exact h.toIndexed.carried_remove parent child p
    | move item origin target acting unrestricted now =>
      rw [Operation.after_move]
      exact h.carried_move item origin target acting unrestricted now
    | mark key deleted now => exact .of_edge? (h.toSound.edge?_mark key deleted now)
    | setDeleted x deleted =>
      rcases Operation.after_setDeleted c x deleted with hm | hm <;> rw [hm]
      · exact .of_same fun _ => rfl
      · exact .of_same fun _ => rfl
    | setAccess x access =>
      rcases Operation.after_setAccess c x access with hm | hm <;> rw [hm]
      · exact .of_same fun _ => rfl
      · exact .of_same fun _ => rfl
    | destroy x =>
      rw [Operation.after_destroy]
      exact h.toListed.carried_destroy x
    | flush => exact .of_same (edge?_flushDeferred c)

/-- **The mark of an item is what the request says of it**, or what it was. -/
theorem sets_after (r : Request) (c : Cabinet) {x : ItemId} {i' : Item}
    (hi : (r.after c).item? x = some i') :
    r.sets x = some i'.deleted ∨
      r.sets x = none ∧ ∃ i, c.item? x = some i ∧ i.deleted = i'.deleted := by
  -- most requests leave the marks of all items alone
  have hsame : ∀ {c' : Cabinet}, SameMarks c c' → c'.item? x = some i' →
      ∃ i, c.item? x = some i ∧ i.deleted = i'.deleted := by
    intro c' hs hi'
    have hx := hs x
    rw [hi'] at hx
    exact Option.map_eq_some_iff.mp hx.symm
  cases r with
  | configure settings => exact .inr ⟨rfl, i', hi, rfl⟩
  | onAdd p parent child =>
    rw [after, perform, Edit.on_bind_pure] at hi
    exact .inr ⟨rfl, hsame (SameMarks.steady.onAdd p parent child c) hi⟩
  | onRemove p parent child =>
    rw [after, perform, Edit.on_bind_pure] at hi
    exact .inr ⟨rfl, hsame (SameMarks.steady.onRemove p parent child c) hi⟩
  | operation op =>
    change (op.after c).item? x = some i' at hi
    cases op with
    | insert item =>
      change (c.insertItem item).item? x = some i' at hi
      rw [item?_insertItem] at hi
      rw [sets]
      split at hi
      · next hx =>
        cases hi
        exact .inl (if_pos hx)
      · next hx => exact .inr ⟨if_neg hx, i', hi, rfl⟩
    | add parent child a =>
      rw [Operation.after_add] at hi
      exact .inr ⟨rfl, hsame (SameMarks.steady.add parent child a c) hi⟩
    | remove parent child p =>
      rw [Operation.after_remove] at hi
      exact .inr ⟨rfl, hsame (SameMarks.steady.remove parent child p c) hi⟩
    | move item origin target acting unrestricted now =>
      rw [Operation.after_move] at hi
      exact .inr ⟨rfl, hsame (SameMarks.steady.move _ _ _ _ _ _ c) hi⟩
    | mark key deleted now =>
      refine .inr ⟨rfl, i', ?_, rfl⟩
      rcases Operation.after_mark c key deleted now with hm | ⟨e, hm⟩ <;> rw [hm] at hi <;> exact hi
    | setDeleted id deleted =>
      rw [Operation.after, Operation.on_setDeleted] at hi
      rw [sets]
      by_cases hx : x = id
      · subst hx
        cases hj : c.item? x with
        | none =>
          rw [item_of_none hj] at hi
          cases hj.symm.trans hi
        | some j =>
          rw [item_of_some hj] at hi
          change (c.modifyItem x _).item? x = _ at hi
          rw [item?_modifyItem, if_pos rfl, hj] at hi
          cases hi
          exact .inl (if_pos rfl)
      · refine .inr ⟨if_neg hx, i', ?_, rfl⟩
        cases hj : c.item id with
        | error => rwa [hj] at hi
        | ok j =>
          rw [hj] at hi
          change (c.modifyItem id _).item? x = _ at hi
          rwa [item?_modifyItem, if_neg hx] at hi
    | setAccess id access =>
      rcases Operation.after_setAccess c id access with hm | hm <;> rw [hm] at hi
      · exact .inr ⟨rfl, i', hi, rfl⟩
      · exact .inr ⟨rfl, hsame (Regranted.setAccess c id access |>.map_item? fun _ => rfl) hi⟩
    | destroy id =>
      rw [Operation.after_destroy] at hi
      rcases SameMarks.steady.destroy id c with hd | ⟨c', hs, hd⟩
      · exact .inr ⟨rfl, hsame hd hi⟩
      · rw [hd] at hi
        exact .inr ⟨rfl, hsame hs (item_before_erase hi)⟩
    | flush =>
      exact .inr ⟨rfl, hsame (map_item?_of_map (item?_flushDeferred c) fun _ _ => rfl) hi⟩

/-! ## Runs -/

section Run

variable {settings : Settings} {epoch : Epoch} {l : List Request}

/-- The request makes the edge: its number was free before, and names the edge afterwards, which
bears no mark yet. -/
def Makes (r : Request) (c : Cabinet) (edge : Edge) : Prop :=
  c.edge? edge.id = none ∧ (r.after c).edge? edge.id = some edge.unmarked

theorem getLast?_filterMap_concat {α : Type} (f : Request → Option α) (l : List Request)
    (r : Request) :
    ((l ++ [r]).filterMap f).getLast? = (f r).or (l.filterMap f).getLast? := by
  rw [List.filterMap_append, List.getLast?_append]
  cases h : f r <;> simp [h]

/-- **A membership is marked as was last said of it** since its edge was made. -/
theorem marks_afterAll (hl : AllAllowed Fresh l (.empty settings epoch))
    (hn : linksAll l (.empty settings epoch) < 2 ^ 64 - 1) {e : EdgeId} {edge : Edge}
    (he : (afterAll l (.empty settings epoch)).edge? e = some edge) :
    ∃ l₁ r l₂, l = l₁ ++ r :: l₂ ∧ r.Makes (afterAll l₁ (.empty settings epoch)) edge ∧
      edge.deleted = (l₂.filterMap (marks edge.key)).getLast?.getD false ∧
      edge.deletedAt.isSome = edge.deleted := by
  induction l using List.reverseRecOn generalizing edge with
  | nil => cases he
  | append_singleton l r ih =>
    have ho' := (orderly_afterAll (orderly_empty settings epoch) hl (linksAll_lt hn)).1
    obtain ⟨hl, _⟩ := allAllowed_append.mp hl
    rw [linksAll_append] at hn
    have ho := (orderly_afterAll (orderly_empty settings epoch) hl (linksAll_lt (by omega))).1
    have hid := ho'.edge_id he
    rw [afterAll_append] at he
    rcases (carried_after ho r).source he with ⟨before, hbefore, rfl⟩ | ⟨rfl, hnew⟩
    · -- the edge is older than the request
      obtain ⟨l₁, r₁, l₂, rfl, hmakes, hdel, hat⟩ := ih hl (by omega) hbefore
      refine ⟨l₁, r₁, l₂ ++ [r], by rw [List.append_assoc, List.cons_append], ?_⟩
      rcases r.marked_cases before with ⟨hm, hsame⟩ | ⟨deleted, now, hm, hmark⟩
      · rw [hsame, getLast?_filterMap_concat, hm, Option.none_or]
        exact ⟨hmakes, hdel, hat⟩
      · have hkey : (before.mark deleted now).key = before.key := rfl
        rw [hmark, getLast?_filterMap_concat, hkey, hm, Option.some_or]
        refine ⟨hmakes, rfl, ?_⟩
        cases deleted <;> rfl
    · -- the request makes it
      refine ⟨l, r, [], rfl, ?_, (congrArg Edge.deleted hnew).symm, ?_⟩
      · rw [Makes, hid, hnew]
        exact ⟨ho.nextEdge_free, he⟩
      · rw [← hnew]
        rfl

/-- **An item is marked as was last said of it.** -/
theorem sets_afterAll (l : List Request) {x : ItemId} {i : Item}
    (hi : (afterAll l (.empty settings epoch)).item? x = some i) :
    (l.filterMap (sets x)).getLast? = some i.deleted := by
  induction l using List.reverseRecOn generalizing i with
  | nil => cases hi
  | append_singleton l r ih =>
    rw [afterAll_append] at hi
    rw [getLast?_filterMap_concat]
    rcases sets_after r _ hi with hs | ⟨hs, j, hj, hdel⟩
    · rw [hs, Option.some_or]
    · rw [hs, Option.none_or, ih hj, hdel]

/-- **Every mark is what was last said of it**, in every cabinet that a run from an empty one comes
to.  A membership bears the mark that the requests since its edge was made have set last, with the
time of deletion, and none if there were none; an item bears the one that it was inserted with or
that was set last.  A member is visible exactly if neither is there.  And a request changes nothing
of a membership that it neither marks nor asks to end, nor whether the member is visible there if it
does not mark the item either. -/
theorem marks_as_told (hl : AllAllowed Fresh l (.empty settings epoch))
    (hn : linksAll l (.empty settings epoch) < 2 ^ 64 - 1)
    (hc : afterAll l (.empty settings epoch) = c) :
    (∀ key edge, c.edgeBetween? key = some edge →
      ∃ l₁ r l₂ i, l = l₁ ++ r :: l₂ ∧ r.Makes (afterAll l₁ (.empty settings epoch)) edge ∧
        edge.deleted = (l₂.filterMap (marks key)).getLast?.getD false ∧
        edge.deletedAt.isSome = edge.deleted ∧
        c.item? key.item = some i ∧ (l.filterMap (sets key.item)).getLast? = some i.deleted ∧
        (key.item ∈ c.visibleChildren key.container ↔
          key.item ∈ c.children key.container ∧ edge.deleted = false ∧ i.deleted = false)) ∧
    ∀ r : Request, r.Fresh c → linksAll l (.empty settings epoch) + r.links c < 2 ^ 64 - 1 →
      ∀ key edge, c.edgeBetween? key = some edge → ¬r.Ends key → r.marks key = none →
        (r.after c).edgeBetween? key = some edge ∧
          (r.sets key.item = none →
            (key.item ∈ (r.after c).visibleChildren key.container ↔
              key.item ∈ c.visibleChildren key.container)) := by
  obtain ⟨ho, hnext⟩ := orderly_afterAll (orderly_empty settings epoch) hl (linksAll_lt hn)
  rw [hc] at ho hnext
  refine ⟨fun key edge hb => ?_, fun r hf hr key edge hb hends hmarks => ?_⟩
  · obtain ⟨rfl, he⟩ := ho.toIndexed.edgeBetween?_eq_some_iff.mp hb
    obtain ⟨i, hi, _⟩ := ho.parent_listed he
    subst hc
    obtain ⟨l₁, r, l₂, hsplit, hmakes, hdel, hat⟩ := marks_afterAll hl hn he
    have hin : edge.item ∈ children _ edge.container :=
      ho.mem_children_iff.mpr ⟨_, edge, he, rfl, rfl⟩
    exact ⟨l₁, r, l₂, i, hsplit, hmakes, hdel, hat, hi, sets_afterAll l hi,
      (ho.mem_visibleChildren_iff_of_edge he hi).trans (and_iff_right hin).symm⟩
  · obtain ⟨rfl, he⟩ := ho.toIndexed.edgeBetween?_eq_some_iff.mp hb
    have hone : (empty settings epoch).nextEdge.toNat = 1 := rfl
    have ho' := (orderly_after ho hf (by omega)).1
    have hsame : r.marked edge = edge := by
      rcases r.marked_cases edge with ⟨_, h⟩ | ⟨deleted, _, h, _⟩
      · exact h
      · cases hmarks.symm.trans h
    have he' := (carried_after ho r).kept he hends
    rw [hsame] at he'
    refine ⟨ho'.edgeBetween?_key he', fun hsets => ?_⟩
    obtain ⟨i', hi', _⟩ := ho'.parent_listed he'
    rcases sets_after r c hi' with h | ⟨_, i, hi, hdel⟩
    · cases hsets.symm.trans h
    · have hafter := ho'.mem_visibleChildren_iff_of_edge he' hi'
      rw [← hdel] at hafter
      exact hafter.trans (ho.mem_visibleChildren_iff_of_edge he hi).symm

/-- A document in two folders is marked as deleted in one of them, taken out of it and put back, and
marked once more before the edge is listed; then it is put there again. -/
def remade : List Request :=
  [.insert (.bare 1 (.container .folder) []), .insert (.bare 2 (.container .folder) []),
    .insert (.bare 3 .document []), .add (.ofNat 1) (.ofNat 3) (.bare .inherit),
    .add (.ofNat 2) (.ofNat 3) (.bare .inherit), .mark ⟨.ofNat 3, .ofNat 1⟩ true .start,
    .remove (.ofNat 1) (.ofNat 3) .inherit,
    .add (.ofNat 1) (.ofNat 3) { Addition.bare .inherit with defer := true },
    .mark ⟨.ofNat 3, .ofNat 1⟩ true .start, .flush,
    .add (.ofNat 1) (.ofNat 3) (.bare .inherit)].map operation

/-- The new edge bears the second mark, and it still does when the document has left the other
folder. -/
theorem marks_as_told_remade : ∃ c edge, afterAll remade (.empty .standard 0) = c ∧
    c.edgeBetween? ⟨.ofNat 3, .ofNat 1⟩ = some edge ∧ edge.id = ⟨3⟩ ∧
    (∃ l₁ r l₂, remade = l₁ ++ r :: l₂ ∧ r.Makes (afterAll l₁ (.empty .standard 0)) edge ∧
      edge.deleted = (l₂.filterMap (marks ⟨.ofNat 3, .ofNat 1⟩)).getLast?.getD false) ∧
    .ofNat 3 ∉ c.visibleChildren (.ofNat 1) ∧
    ((operation (.remove (.ofNat 2) (.ofNat 3) .inherit)).after c).edgeBetween?
      ⟨.ofNat 3, .ofNat 1⟩ = some edge := by
  have hl : AllAllowed Fresh remade (.empty .standard 0) :=
    ⟨rfl, rfl, rfl, trivial, trivial, trivial, trivial, trivial, trivial, trivial, trivial, trivial⟩
  have hn : linksAll remade (.empty .standard 0) ≤ 11 := linksAll_le_length ..
  obtain ⟨hmarks, hframe⟩ := marks_as_told hl (by omega) rfl
  obtain ⟨edge, hb, hedge⟩ : ∃ edge, (afterAll remade (.empty .standard 0)).edgeBetween?
      ⟨.ofNat 3, .ofNat 1⟩ = some edge ∧ (edge.id, edge.deleted) = (⟨3⟩, true) :=
    Option.map_eq_some_iff.mp (by cbv)
  obtain ⟨hid, hdel⟩ := Prod.mk.inj hedge
  obtain ⟨l₁, r, l₂, i, hsplit, hmakes, hlast, _, _, _, hvisible⟩ := hmarks _ edge hb
  refine ⟨_, edge, rfl, hb, hid, ⟨l₁, r, l₂, hsplit, hmakes, hlast⟩, fun hm => ?_, ?_⟩
  · rw [hvisible, hdel] at hm
    cases hm.2.1
  · let removal := operation (.remove (.ofNat 2) (.ofNat 3) .inherit)
    have hr := removal.links_le_one (afterAll remade (.empty .standard 0))
    have hends : ¬removal.Ends ⟨.ofNat 3, .ofNat 1⟩ := by
      intro h
      cases h
    exact (hframe removal trivial (by omega) _ edge hb hends rfl).1

end Run

end Request

end Filing
