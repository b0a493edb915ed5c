import Filing.Proofs.Change
import Filing.Proofs.Inheritance.Flow

/-!
# Operations as sequences of changes

What adding, removing, moving and destroying do is told case by case (`on_add_cases`,
`on_remove_of_some`, `on_move_cases`, `on_destroy_cases`), and each is then a sequence of elementary
changes that enters at most one edge, whether it succeeds or fails half-way.

* `changes_add`, `changes_remove`, `changes_move`, `changes_destroy`: **the sequences**.
* `retouched_convert`, `convert_ok`: the conversion of kinds leaves the structure alone, and it
  always comes to its end where every member is stored.

A relation between an earlier and a later state that is kept by each step of an operation is kept by
the operation (`Settling.settle`, `Ending.remove`, `Steady.add` and what follows them).  Nothing is
asked of the cabinet there, so this holds also of cabinets that are not in order.
-/

namespace Filing

open Cabinet

variable {c c' : Cabinet}

/-! ## Kinds -/

theorem Item.outline_withContainerKind (i : Item) (k : ContainerKind) :
    (i.withContainerKind k).outline = i.outline := by
  rw [Item.withContainerKind]
  split
  · next h =>
    rw [Item.outline, Item.outline, h]
    rfl
  · rfl

theorem Cabinet.retouched_share (c : Cabinet) (id : ItemId) (kind : ContainerKind) :
    c.Retouched (c.share id kind) := by
  unfold share
  split
  · exact .refl c
  · exact (Retouched.modifyItem c id fun i => i.outline_withContainerKind _).trans (.bump _)

theorem mem_stackUp {l unmet stack : List ItemId} {id : ItemId}
    (h : id ∈ (stackUp l unmet stack).2) : id ∈ l ∨ id ∈ stack := by
  induction l generalizing unmet stack with
  | nil => exact .inr h
  | cons j rest ih =>
    rw [stackUp] at h
    split at h
    · rcases ih h with h | h
      · exact .inl (List.mem_cons_of_mem _ h)
      · rcases List.mem_cons.mp h with rfl | h
        · exact .inl List.mem_cons_self
        · exact .inr h
    · rcases ih h with h | h
      · exact .inl (List.mem_cons_of_mem _ h)
      · exact .inr h

theorem convert_rel {R : Cabinet → Cabinet → Prop} (hrefl : ∀ c, R c c)
    (htrans : ∀ {c c' c''}, R c c' → R c' c'' → R c c'')
    (hshare : ∀ {c : Cabinet} {id i kind}, c.item? id = some i → i.kind = .container kind →
      R c (c.share id kind)) (c : Cabinet) (stack unmet : List ItemId) :
    R c (convert c stack unmet).2 := by
  induction c, stack, unmet using convert.induct with
  | case1 c unmet =>
    unfold convert
    exact hrefl c
  | case2 c unmet id stack hi =>
    rw [convert, hi]
    exact hrefl c
  | case3 c unmet id stack i hi hk ih =>
    rw [convert, hi]
    simp only [hk]
    exact ih
  | case4 c unmet id stack i hi kind hk met ih =>
    rw [convert, hi]
    simp only [hk]
    exact htrans (hshare hi hk) ih

theorem retouched_convert (c : Cabinet) (stack unmet : List ItemId) :
    c.Retouched (convert c stack unmet).2 :=
  convert_rel .refl .trans (fun _ _ => retouched_share ..) c stack unmet

/-- Whatever can be on the stack is stored, so the conversion does not stop half-way. -/
theorem convert_ok (h : c.MembersStored) (stack unmet : List ItemId)
    (hs : ∀ id ∈ stack, ∃ i, c.item? id = some i) : (convert c stack unmet).1 = .ok () := by
  induction c, stack, unmet using convert.induct with
  | case1 c unmet => rw [convert]
  | case2 c unmet id stack hi =>
    obtain ⟨i, hi'⟩ := hs id List.mem_cons_self
    rw [hi] at hi'
    cases hi'
  | case3 c unmet id stack i hi hk ih =>
    rw [convert, hi]
    simp only [hk]
    exact ih h fun id hm => hs id (List.mem_cons_of_mem _ hm)
  | case4 c unmet id stack i hi kind hk met ih =>
    rw [convert, hi]
    simp only [hk]
    have hr := retouched_share c id kind
    apply ih (hr.membersStored h)
    intro j hm
    obtain ⟨i, hi⟩ : ∃ i, c.item? j = some i := by
      rcases mem_stackUp hm with hm | hm
      · exact h.of_mem_children hm
      · exact hs j (List.mem_cons_of_mem _ hm)
    obtain ⟨i', hi', _⟩ := hr.item_after hi
    exact ⟨i', hi'⟩

theorem on_convertKinds (parent child : ItemId) (c : Cabinet) :
    (convertKinds parent child).on c =
      match c.item parent with
      | .error x => (.error x, c)
      | .ok i => if i.isShared then convert c [child] (c.memberIds.erase child) else (.ok (), c) :=
  rfl

theorem convertKinds_rel {R : Cabinet → Cabinet → Prop} (hrefl : ∀ c, R c c)
    (htrans : ∀ {c c' c''}, R c c' → R c' c'' → R c c'')
    (hshare : ∀ {c : Cabinet} {id i kind}, c.item? id = some i → i.kind = .container kind →
      R c (c.share id kind)) (parent child : ItemId) (c : Cabinet) :
    R c ((convertKinds parent child).on c).2 := by
  rw [on_convertKinds]
  cases c.item parent with
  | error => exact hrefl c
  | ok i =>
    dsimp only
    split
    · exact convert_rel hrefl htrans hshare ..
    · exact hrefl c

/-! ## Adding -/

section Add

variable {parent child : ItemId} {a : Addition}

/-- What follows the entry of a new edge. -/
def Addition.settle (a : Addition) (parent child : ItemId) (e : EdgeId) : Edit Added := do
  if a.propagation.convertsKinds then
    convertKinds parent child
  a.propagation.onAdd parent child
  return .added e

theorem settle_rel {R : Cabinet → Cabinet → Prop}
    (htrans : ∀ {c c' c''}, R c c' → R c' c'' → R c c'')
    (hkinds : ∀ parent child c, R c ((convertKinds parent child).on c).2)
    (hgrants : ∀ (p : Propagation) parent child c, R c ((p.onAdd parent child).on c).2)
    (a : Addition) (parent child : ItemId) (e : EdgeId) (c : Cabinet) :
    R c ((a.settle parent child e).on c).2 := by
  have hrest : ∀ c : Cabinet, R c ((do
      a.propagation.onAdd parent child
      return Added.added e : Edit Added).on c).2 := fun c => by
    rw [Edit.on_bind_pure]
    exact hgrants a.propagation parent child c
  rw [Addition.settle]
  cases a.propagation.convertsKinds with
  | false => exact hrest c
  | true => exact Edit.on_bind_rel (R := R) htrans (hkinds parent child c) fun _ => hrest

/-- A relation between an earlier and a later state that holds across every conversion of a kind and
every flow of grants after an addition. -/
structure Cabinet.Settling (R : Cabinet → Cabinet → Prop) : Prop where
  refl : ∀ c, R c c
  trans : ∀ {c c' c''}, R c c' → R c' c'' → R c c''
  share : ∀ c id kind, R c (c.share id kind)
  onAdd : ∀ (p : Propagation) parent child c, R c ((p.onAdd parent child).on c).2

namespace Cabinet.Settling

variable {R : Cabinet → Cabinet → Prop}

theorem convertKinds (h : Settling R) (parent child : ItemId) (c : Cabinet) :
    R c ((Filing.convertKinds parent child).on c).2 :=
  convertKinds_rel h.refl h.trans (fun _ _ => h.share ..) parent child c

/-- **It holds across all that follows the entry of a new edge.** -/
theorem settle (h : Settling R) (a : Addition) (parent child : ItemId) (e : EdgeId) (c : Cabinet) :
    R c ((a.settle parent child e).on c).2 :=
  settle_rel (R := R) h.trans h.convertKinds h.onAdd a parent child e c

end Cabinet.Settling

theorem settling_retouched : Settling Retouched where
  refl := .refl
  trans := .trans
  share := retouched_share
  onAdd := Propagation.retouched_onAdd

theorem retouched_settle (a : Addition) (parent child : ItemId) (e : EdgeId) (c : Cabinet) :
    c.Retouched ((a.settle parent child e).on c).2 :=
  settling_retouched.settle a parent child e c

theorem settle_answer {e : EdgeId} {r : Added} (h : (a.settle parent child e).on c = (.ok r, c')) :
    r = .added e := by
  have hrest : ∀ c : Cabinet, ((do
      a.propagation.onAdd parent child
      return Added.added e : Edit Added).on c) = (.ok r, c') → r = .added e := by
    intro c h
    rw [Edit.on_bind] at h
    rcases hp : (a.propagation.onAdd parent child).on c with ⟨_ | _, c₁⟩
    · rw [hp] at h
      cases h
    · rw [hp] at h
      cases h
      rfl
  rw [Addition.settle] at h
  cases hc : a.propagation.convertsKinds with
  | false =>
    rw [hc] at h
    exact hrest c h
  | true =>
    rw [hc] at h
    change (convertKinds parent child >>= fun _ => _).on c = _ at h
    rw [Edit.on_bind] at h
    rcases hk : (convertKinds parent child).on c with ⟨_ | _, c₁⟩ <;> rw [hk] at h
    · cases h
    · exact hrest c₁ h

theorem on_add_refused {x : Failure} (h : c.checkAdd parent child a.policy = .error x) :
    (add parent child a).on c = (.error x, c) := by
  unfold add
  simp only [Edit.on_bind, Edit.on_get, Edit.on_liftM, h]

theorem on_add_present {e : EdgeId} (h : c.checkAdd parent child a.policy = .ok ())
    (hi : c.index.find? ⟨child, parent⟩ = some e) :
    (add parent child a).on c = (.ok (.alreadyPresent e), c) := by
  have hl : c.link ⟨child, parent⟩ a.acting a.defer a.now = .ok (.existing e, c) := by
    rw [link, hi]
  unfold add
  simp only [Edit.on_bind, Edit.on_get, Edit.on_liftM, h, hl, Edit.on_set, Edit.on_pure]

/-- **An addition that is allowed and new enters the next edge**, and settles kinds and grants. -/
theorem on_add_created (h : c.checkAdd parent child a.policy = .ok ())
    (hi : c.index.find? ⟨child, parent⟩ = none) :
    (add parent child a).on c =
      (a.settle parent child c.nextEdge).on
        (c.withEdge ⟨child, parent⟩ a.acting a.defer a.now) := by
  obtain ⟨_, ⟨i, j, hpi, _, hcj, _⟩, _⟩ := checkAdd_eq_ok_iff.mp h
  have hp : c.contains parent = true := by
    rw [contains, SortedMap.contains_eq_true_iff]
    exact ⟨i, hpi⟩
  have hc : c.contains child = true := by
    rw [contains, SortedMap.contains_eq_true_iff]
    exact ⟨j, hcj⟩
  have hl : c.link ⟨child, parent⟩ a.acting a.defer a.now =
      .ok (.created c.nextEdge, c.withEdge ⟨child, parent⟩ a.acting a.defer a.now) := by
    rw [link, hi]
    simp [hp, hc]
  unfold add
  simp only [Edit.on_bind, Edit.on_get, Edit.on_liftM, h, hl, Edit.on_set]
  rfl

/-- An addition changes nothing, or it enters the next edge and retouches kinds and grants. -/
theorem on_add_cases (parent child : ItemId) (a : Addition) (c : Cabinet) :
    ((add parent child a).on c).2 = c ∨
      c.checkAdd parent child a.policy = .ok () ∧ c.index.find? ⟨child, parent⟩ = none ∧
        (c.withEdge ⟨child, parent⟩ a.acting a.defer a.now).Retouched
          ((add parent child a).on c).2 := by
  cases h : c.checkAdd parent child a.policy with
  | error x =>
    rw [on_add_refused h]
    exact .inl rfl
  | ok =>
    cases hi : c.index.find? ⟨child, parent⟩ with
    | some e =>
      rw [on_add_present h hi]
      exact .inl rfl
    | none =>
      rw [on_add_created h hi]
      exact .inr ⟨rfl, rfl, retouched_settle ..⟩

/-- **Adding is at most one new edge**, and a retouch. -/
theorem changes_add (parent child : ItemId) (a : Addition) (c : Cabinet) :
    ∃ n ≤ 1, Changes n c ((add parent child a).on c).2 := by
  rcases on_add_cases parent child a c with hsame | ⟨hadd, hi, hr⟩
  · rw [hsame]
    exact ⟨0, by omega, .refl c⟩
  · have hlink := Changes.single (.link a.acting a.defer a.now hadd hi)
    exact ⟨1, by omega, hlink.tail (.retouch hr)⟩

end Add

/-! ## Removing -/

section Remove

variable {parent child : ItemId} {p : Propagation}

theorem on_remove_of_none (h : c.unlink? ⟨child, parent⟩ = none) :
    (remove parent child p).on c = (.ok false, c) := by
  unfold remove
  simp only [Edit.on_bind, Edit.on_get, h, Edit.on_pure]

/-- **A membership that can be taken out goes first**, and then grants are retracted. -/
theorem on_remove_of_some (h : c.unlink? ⟨child, parent⟩ = some c') :
    (remove parent child p).on c =
      (do p.onRemove parent child; return true : Edit Bool).on c' := by
  unfold remove
  simp only [Edit.on_bind, Edit.on_get, h, Edit.on_set]

theorem changes_remove (parent child : ItemId) (p : Propagation) (c : Cabinet) :
    Changes 0 c ((remove parent child p).on c).2 := by
  cases h : c.unlink? ⟨child, parent⟩ with
  | none =>
    rw [on_remove_of_none h]
    exact .refl c
  | some c₁ =>
    rw [on_remove_of_some h]
    rw [Edit.on_bind_pure]
    exact (Changes.single (.unlink h)).tail (.retouch (p.retouched_onRemove parent child c₁))

end Remove

/-! ## Moving -/

/-- The addition that a move ends with. -/
def Cabinet.movedIn (c : Cabinet) (acting : Principal) (now : Timestamp) : Addition :=
  { policy := .standard, acting, propagation := c.settings.movePolicy, defer := false, now }

/-- **A move removes and then adds**, if it may. -/
theorem on_move (item origin target : ItemId) (acting : Principal) (unrestricted : Bool)
    (now : Timestamp) (c : Cabinet) :
    (move item origin target acting unrestricted now).on c =
      match c.mayMove item origin target unrestricted with
      | .error x => (.error x, c)
      | .ok false => (.ok false, c)
      | .ok true => (do
          if !(← remove origin item c.settings.movePolicy) then
            return false
          let _ ← add target item (c.movedIn acting now)
          return true : Edit Bool).on c := by
  rw [move, Edit.on_get_bind, Edit.on_liftM_bind]
  rcases c.mayMove item origin target unrestricted with _ | _ | _ <;> rfl

theorem on_move_cases (item origin target : ItemId) (acting : Principal) (unrestricted : Bool)
    (now : Timestamp) (c : Cabinet) :
    ((move item origin target acting unrestricted now).on c).2 = c ∨
      ((move item origin target acting unrestricted now).on c).2 =
        ((remove origin item c.settings.movePolicy).on c).2 ∨
      ((move item origin target acting unrestricted now).on c).2 =
        ((add target item (c.movedIn acting now)).on
          ((remove origin item c.settings.movePolicy).on c).2).2 := by
  rw [on_move]
  rcases c.mayMove item origin target unrestricted with _ | _ | _
  · exact .inl rfl
  · exact .inl rfl
  · refine .inr ?_
    dsimp only
    rw [Edit.on_bind]
    rcases (remove origin item c.settings.movePolicy).on c with ⟨_ | _ | _, c₁⟩
    · exact .inl rfl
    · exact .inl rfl
    · refine .inr ?_
      show ((add target item (c.movedIn acting now) >>= fun _ => pure true : Edit Bool).on c₁).2 = _
      rw [Edit.on_bind_pure]

theorem changes_move (item origin target : ItemId) (acting : Principal) (unrestricted : Bool)
    (now : Timestamp) (c : Cabinet) :
    ∃ n ≤ 1, Changes n c ((move item origin target acting unrestricted now).on c).2 := by
  rcases on_move_cases item origin target acting unrestricted now c with h | h | h
  · rw [h]
    exact ⟨0, by omega, .refl c⟩
  · rw [h]
    exact ⟨0, by omega, changes_remove ..⟩
  · rw [h]
    obtain ⟨n, hn, ha⟩ := changes_add target item (c.movedIn acting now)
      ((remove origin item c.settings.movePolicy).on c).2
    exact ⟨0 + n, by omega, (changes_remove ..).trans ha⟩

/-! ## Destroying -/

section Destroy

variable {id : ItemId} {i : Item}

theorem on_detach_of_some {container : ItemId} {rest : List ItemId}
    (h : c.unlink? ⟨id, container⟩ = some c') :
    (detach id (container :: rest)).on c = (detach id rest).on c' := by
  rw [detach]
  simp only [Edit.on_bind, Edit.on_get, h, Edit.on_set]

theorem on_detach_of_none {container : ItemId} {rest : List ItemId}
    (h : c.unlink? ⟨id, container⟩ = none) :
    (detach id (container :: rest)).on c =
      (.error (.inconsistent (.undetachable id container)), c) := by
  unfold detach
  simp only [Edit.on_bind, Edit.on_get, h, Edit.on_throw]

theorem changes_detach (id : ItemId) (l : List ItemId) (c : Cabinet) :
    Changes 0 c ((detach id l).on c).2 := by
  induction l generalizing c with
  | nil => exact .refl c
  | cons container rest ih =>
    cases h : c.unlink? ⟨id, container⟩ with
    | none =>
      rw [on_detach_of_none h]
      exact .refl c
    | some c₁ =>
      rw [on_detach_of_some h]
      exact (Changes.single (.unlink h)).trans (ih c₁)

theorem Cabinet.Unlinked.mem_childEdges {key : Membership} {e : EdgeId} (h : c.Unlinked key e c')
    {edge : Edge} (hm : edge ∈ c'.childEdges id) : edge ∈ c.childEdges id := by
  obtain ⟨i', e', hi', he', hl⟩ := mem_childEdges_iff.mp hm
  obtain ⟨i, hi, rfl⟩ := h.item_before hi'
  refine mem_childEdges_iff.mpr ⟨i, e', hi, (h.edge?_before he').2, hl.imp ?_ ?_⟩
  · intro hl
    dsimp only at hl
    split at hl
    · exact List.mem_of_mem_erase hl
    · exact hl
  · rintro ⟨hd, hc⟩
    rcases h.on_container with ⟨_, hdef⟩ | ⟨_, _, hdef⟩ <;> rw [hdef] at hd
    · exact ⟨hd, hc⟩
    · exact ⟨List.mem_of_mem_erase hd, hc⟩

theorem detach_ok {l : List ItemId} (h : (detach id l).on c = (.ok (), c'))
    (hi : c.item? id = some i) :
    ∃ i', c'.item? id = some i' ∧ i'.parentEdges.length + l.length = i.parentEdges.length ∧
      i'.isContainer = i.isContainer ∧ ∀ edge ∈ c'.childEdges id, edge ∈ c.childEdges id := by
  induction l generalizing c i with
  | nil =>
    cases h
    exact ⟨i, hi, by simp, rfl, fun _ hm => hm⟩
  | cons container rest ih =>
    cases hu : c.unlink? ⟨id, container⟩ with
    | none =>
      rw [on_detach_of_none hu] at h
      cases h
    | some c₁ =>
      rw [on_detach_of_some hu] at h
      obtain ⟨e, hu⟩ := unlinked_of_unlink? hu
      obtain ⟨i', hi', hlen, hcont, hsub⟩ := ih h (hu.item_after hi)
      refine ⟨i', hi', ?_, hcont, fun edge hm => hu.mem_childEdges (hsub edge hm)⟩
      obtain ⟨j, hj, hm⟩ := hu.on_item
      rw [show c.item? id = some j from hj] at hi
      cases hi
      have hpos := List.length_pos_of_mem hm
      have herase : (if id = (⟨id, container⟩ : Membership).item then i.parentEdges.erase e
          else i.parentEdges).length = i.parentEdges.length - 1 := by
        rw [if_pos rfl, List.length_erase_of_mem hm]
      have hlen' := hlen.trans herase
      rw [List.length_cons]
      omega

theorem on_destroy_of_none (hi : c.item? id = none) :
    (destroy id).on c = (.error (.itemNotFound id), c) := by
  unfold destroy
  simp only [Edit.on_bind, Edit.on_get, Edit.on_liftM, item_of_none hi]

theorem on_destroy_of_some (hi : c.item? id = some i) :
    (destroy id).on c =
      if i.isContainer && !(c.childEdges id).isEmpty then (.error (.notEmpty id), c)
      else match (detach id (c.parents id)).on c with
        | (.error x, c₁) => (.error x, c₁)
        | (.ok _, c₁) => match c₁.item id with
          | .error x => (.error x, c₁)
          | .ok j => (.ok j, c₁.eraseItem id) := by
  rw [destroy, Edit.on_get_bind, Edit.on_liftM_bind, item_of_some hi]
  dsimp only
  split
  · rfl
  · rw [Edit.on_bind]
    rcases (detach id (c.parents id)).on c with ⟨_ | _, c₁⟩
    · rfl
    · simp only [Edit.on_bind, Edit.on_get, Edit.on_liftM]
      cases c₁.item id <;> rfl

theorem on_destroy_cases (id : ItemId) (c : Cabinet) :
    ((destroy id).on c).2 = c ∨ ∃ i, c.item? id = some i ∧
      (i.isContainer = true → c.childEdges id = []) ∧
      (((destroy id).on c).2 = ((detach id (c.parents id)).on c).2 ∨
        ∃ c', (detach id (c.parents id)).on c = (.ok (), c') ∧
          ((destroy id).on c).2 = c'.eraseItem id) := by
  cases hi : c.item? id with
  | none => exact .inl (by rw [on_destroy_of_none hi])
  | some i =>
    rw [on_destroy_of_some hi]
    split
    · exact .inl rfl
    · next hc =>
      refine .inr ⟨i, rfl, fun hcont => by simpa [hcont] using hc, ?_⟩
      rcases (detach id (c.parents id)).on c with ⟨_ | _, c₁⟩
      · exact .inl rfl
      · dsimp only
        cases c₁.item id with
        | error => exact .inl rfl
        | ok j => exact .inr ⟨c₁, rfl, rfl⟩

theorem Cabinet.Listed.length_parents (h : c.Listed) (hi : c.item? id = some i) :
    (c.parents id).length = i.parentEdges.length := by
  rw [parents, parentEdges, hi, List.length_map]
  apply List.filterMap_length_eq_length.mpr
  intro e he
  obtain ⟨edge, he, _⟩ := h.parent_stored hi he
  rw [he]
  rfl

/-- **After all detachments an item is in no container**, and has members only if it had some. -/
theorem detach_parents_ok (h : c.Listed) (hi : c.item? id = some i)
    (hempty : i.isContainer = true → c.childEdges id = [])
    (hdet : (detach id (c.parents id)).on c = (.ok (), c')) :
    ∃ i', c'.item? id = some i' ∧ i'.parentEdges = [] ∧
      (i'.isContainer = true → c'.childEdges id = []) := by
  obtain ⟨i', hi', hlen, hcont, hsub⟩ := detach_ok hdet hi
  rw [h.length_parents hi] at hlen
  refine ⟨i', hi', List.length_eq_zero_iff.mp (by omega), fun hc' => ?_⟩
  apply List.eq_nil_iff_forall_not_mem.mpr
  intro edge hm
  have hm' := hsub edge hm
  rw [hempty (hcont ▸ hc')] at hm'
  cases hm'

theorem changes_destroy (h : c.Listed) (id : ItemId) : Changes 0 c ((destroy id).on c).2 := by
  rcases on_destroy_cases id c with hd | ⟨i, hi, hempty, hd | ⟨c₁, hdet, hd⟩⟩
  · rw [hd]
    exact .refl c
  · rw [hd]
    exact changes_detach ..
  · rw [hd]
    have hc : Changes 0 c c₁ := by
      have := changes_detach id (c.parents id) c
      rwa [hdet] at this
    obtain ⟨i', hi', hparents, hmembers⟩ := detach_parents_ok h hi hempty hdet
    exact hc.tail (.erase hi' hparents hmembers)

end Destroy

/-! ## Relations that operations keep -/

/-- A relation between an earlier and a later state that holds across the end of a membership and
every flow of grants after it. -/
structure Cabinet.Ending (R : Cabinet → Cabinet → Prop) : Prop where
  refl : ∀ c, R c c
  trans : ∀ {c c' c''}, R c c' → R c' c'' → R c c''
  unlink? : ∀ {c c' key}, c.unlink? key = some c' → R c c'
  onRemove : ∀ (p : Propagation) parent child c, R c ((p.onRemove parent child).on c).2

/-- A relation between an earlier and a later state that holds across every step of an operation
that moves items about. -/
structure Cabinet.Steady (R : Cabinet → Cabinet → Prop) : Prop extends Settling R, Ending R where
  withEdge : ∀ c key owner defer now, R c (c.withEdge key owner defer now)

namespace Cabinet.Ending

variable {R : Cabinet → Cabinet → Prop}

theorem remove (h : Ending R) (parent child : ItemId) (p : Propagation) (c : Cabinet) :
    R c ((Filing.remove parent child p).on c).2 := by
  cases hu : c.unlink? ⟨child, parent⟩ with
  | none =>
    rw [on_remove_of_none hu]
    exact h.refl c
  | some c₁ =>
    rw [on_remove_of_some hu, Edit.on_bind_pure]
    exact h.trans (h.unlink? hu) (h.onRemove p parent child c₁)

theorem detach (h : Ending R) (id : ItemId) (l : List ItemId) (c : Cabinet) :
    R c ((Cabinet.detach id l).on c).2 := by
  induction l generalizing c with
  | nil => exact h.refl c
  | cons container rest ih =>
    cases hu : c.unlink? ⟨id, container⟩ with
    | none =>
      rw [on_detach_of_none hu]
      exact h.refl c
    | some c₁ =>
      rw [on_detach_of_some hu]
      exact h.trans (h.unlink? hu) (ih c₁)

theorem destroy (h : Ending R) (id : ItemId) (c : Cabinet) :
    R c ((Cabinet.destroy id).on c).2 ∨
      ∃ c', R c c' ∧ ((Cabinet.destroy id).on c).2 = c'.eraseItem id := by
  have hdet := h.detach id (c.parents id) c
  rcases on_destroy_cases id c with hd | ⟨_, _, _, hd | ⟨c', hc, hd⟩⟩ <;> rw [hd]
  · exact .inl (h.refl c)
  · exact .inl hdet
  · rw [hc] at hdet
    exact .inr ⟨c', hdet, rfl⟩

end Cabinet.Ending

namespace Cabinet.Steady

variable {R : Cabinet → Cabinet → Prop}

theorem add (h : Steady R) (parent child : ItemId) (a : Addition) (c : Cabinet) :
    R c ((Filing.add parent child a).on c).2 := by
  cases hadd : c.checkAdd parent child a.policy with
  | error x =>
    rw [on_add_refused hadd]
    exact h.refl c
  | ok =>
    cases hi : c.index.find? ⟨child, parent⟩ with
    | some e =>
      rw [on_add_present hadd hi]
      exact h.refl c
    | none =>
      rw [on_add_created hadd hi]
      exact h.trans (h.withEdge ..) (h.settle ..)

theorem move (h : Steady R) (item origin target : ItemId) (acting : Principal)
    (unrestricted : Bool) (now : Timestamp) (c : Cabinet) :
    R c ((Filing.move item origin target acting unrestricted now).on c).2 := by
  rcases on_move_cases item origin target acting unrestricted now c with hm | hm | hm <;> rw [hm]
  · exact h.refl c
  · exact h.remove ..
  · exact h.trans (h.remove ..) (h.add ..)

end Cabinet.Steady

end Filing
