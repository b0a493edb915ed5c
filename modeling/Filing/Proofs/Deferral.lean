import Filing.Proofs.Inheritance.Alike

/-!
# Deferral makes no difference

Whether a container lists a new edge at once or later, and when deferred edges are listed, has no
effect that a caller could see, but for the order in which members are listed.  Two runs that differ
in nothing else (`Paired`) give the same answers and lead to twins.

* `Twins.add`, `Twins.remove`, `Twins.move`, `Twins.destroy`: each operation gives the same answer
  on twins, and leaves twins.
* `Twins.step`: **so does every request of a caller**; an addition may be deferred on one side and
  not on the other.
* `paired_agree`: **so do all steps that two paired runs have in common**.
-/

namespace Filing

open Cabinet

variable {c c' : Cabinet}

/-! ## Listing deferred edges -/

namespace Cabinet

/-- **Listing the deferred edges changes no listing of members**, its order included. -/
theorem childEdges_flushDeferred (c : Cabinet) (id : ItemId) :
    c.flushDeferred.1.childEdges id = c.childEdges id := by
  have hedge : c.flushDeferred.1.edge? = c.edge? := funext (edge?_flushDeferred c)
  cases hi : c.item? id with
  | none =>
    have hi' : c.flushDeferred.1.item? id = none := by rw [item?_flushDeferred, hi]; rfl
    rw [childEdges, childEdges, hi, hi']
  | some i =>
    have hd : c.flushDeferred.1.deferred = [] := by rw [flushDeferred_eq]
    rw [childEdges_eq hi, childEdges_eq (by rw [item?_flushDeferred, hi]; rfl), hd, hedge]
    simp

theorem children_flushDeferred (c : Cabinet) (id : ItemId) :
    c.flushDeferred.1.children id = c.children id := by
  rw [children, childEdges_flushDeferred]
  rfl

namespace Twins

theorem flushLeft (h : Twins c c') : Twins c.flushDeferred.1 c' :=
  ⟨(Alike.flushDeferred c).symm.trans h.alike, h.left.flushDeferred, h.right⟩

theorem flushRight (h : Twins c c') : Twins c c'.flushDeferred.1 :=
  ⟨h.alike.trans (.flushDeferred c'), h.left, h.right.flushDeferred⟩

/-! ## Adding and removing -/

variable {parent child : ItemId}

theorem settle (h : Twins c c') (a : Addition) (e : EdgeId)
    (hp : ∃ i, c.item? parent = some i) (hc : ∃ j, c.item? child = some j) :
    Agree ((a.settle parent child e).on c) ((a.settle parent child e).on c') := by
  have hgrants : ∀ {d d'}, Twins d d' → Agree
      ((do a.propagation.onAdd parent child; return Added.added e : Edit Added).on d)
      ((do a.propagation.onAdd parent child; return Added.added e : Edit Added).on d') :=
    fun hd => (hd.onAdd a.propagation parent child).bind fun _ _ _ hd => hd.agree _
  rw [Addition.settle]
  cases a.propagation.convertsKinds with
  | false => exact hgrants h
  | true => exact (h.convertKinds hp hc).bind fun _ _ _ hd => hgrants hd

theorem add (h : Twins c c') (hn : c.edge? c.nextEdge = none) (parent child : ItemId)
    (a : Addition) (defer : Bool) (now : Timestamp) :
    Agree ((add parent child a).on c) ((add parent child { a with defer, now }).on c') := by
  let a' : Addition := { a with defer, now }
  have hcheck : c'.checkAdd parent child a'.policy = c.checkAdd parent child a.policy :=
    h.alike.checkAdd ..
  cases hadd : c.checkAdd parent child a.policy with
  | error x =>
    rw [on_add_refused hadd, on_add_refused (hcheck.trans hadd)]
    exact h.agree _
  | ok =>
    have hadd' : c'.checkAdd parent child a'.policy = .ok () := hcheck.trans hadd
    cases hi : c.index.find? ⟨child, parent⟩ with
    | some e =>
      rw [on_add_present hadd hi, on_add_present hadd' (h.alike.index ▸ hi)]
      exact h.agree _
    | none =>
      have hi' : c'.index.find? ⟨child, parent⟩ = none := h.alike.index ▸ hi
      have hn' : c'.edge? c'.nextEdge = none := h.alike.nextEdge ▸ h.alike.edge?_of_none hn
      obtain ⟨_, ⟨i, j, hp, _, hc, _⟩, _⟩ := checkAdd_eq_ok_iff.mp hadd
      have hstored : ∀ {x k}, c.item? x = some k →
          ∃ k', (c.withEdge ⟨child, parent⟩ a.acting a.defer a.now).item? x = some k' := by
        intro x k hk
        rw [item?_withEdge, hk]
        exact ⟨_, rfl⟩
      have htwins : Twins (c.withEdge ⟨child, parent⟩ a.acting a.defer a.now)
          (c'.withEdge ⟨child, parent⟩ a'.acting a'.defer a'.now) :=
        ⟨h.alike.withEdge .., h.left.withEdge a.acting a.defer a.now hn hadd hi,
          h.right.withEdge a'.acting a'.defer a'.now hn' hadd' hi'⟩
      rw [on_add_created hadd hi, on_add_created hadd' hi', h.alike.nextEdge]
      exact htwins.settle a c.nextEdge (hstored hp) (hstored hc)

theorem remove (h : Twins c c') (parent child : ItemId) (p : Propagation) :
    Agree ((remove parent child p).on c) ((remove parent child p).on c') := by
  rcases h.unlink? ⟨child, parent⟩ with ⟨hu, hu'⟩ | ⟨d, d', hu, hu', hd⟩
  · rw [on_remove_of_none hu, on_remove_of_none hu']
    exact h.agree _
  · rw [on_remove_of_some hu, on_remove_of_some hu']
    exact (hd.onRemove p parent child).bind fun _ _ _ hd => hd.agree _

end Twins

/-! ## Moving -/

theorem Alike.mayMove (h : Alike c c') (item origin target : ItemId) (unrestricted : Bool) :
    c'.mayMove item origin target unrestricted = c.mayMove item origin target unrestricted := by
  unfold Cabinet.mayMove
  rw [show c'.isMember ⟨item, origin⟩ = c.isMember ⟨item, origin⟩ by
    rw [isMember, isMember, h.index], h.checkAdd]
  split
  · rfl
  · refine h.item_bind item fun i l _ => ?_
    show (if i.kind.isContainerThat fun k => !k.isRelocatable then _ else _) = _
    split
    · rfl
    · split
      · refine h.container_bind origin fun j l _ => h.container_bind target fun k l' _ => ?_
        rfl
      · rfl

theorem Twins.move (h : Twins c c') (ha : c.Accounted) (item origin target : ItemId)
    (acting : Principal) (unrestricted : Bool) (now now' : Timestamp) :
    Agree ((move item origin target acting unrestricted now).on c)
      ((move item origin target acting unrestricted now').on c') := by
  rw [on_move, on_move, h.alike.mayMove, h.alike.settings]
  rcases c.mayMove item origin target unrestricted with x | _ | _
  · exact h.agree _
  · exact h.agree _
  · dsimp only
    have hrem := h.remove origin item c.settings.movePolicy
    have hacc := (changes_remove origin item c.settings.movePolicy c).accounted ha
      c.nextEdge.value.toNat_lt
    rw [Edit.on_bind, Edit.on_bind]
    generalize (Filing.remove origin item c.settings.movePolicy).on c = r at hrem hacc
    generalize (Filing.remove origin item c.settings.movePolicy).on c' = r' at hrem
    obtain ⟨x | b, d⟩ := r <;> obtain ⟨x' | b', d'⟩ := r' <;> obtain ⟨hans, hd⟩ := hrem <;>
      cases hans
    · exact hd.agree _
    · cases b with
      | false => exact hd.agree _
      | true =>
        have hadd := hd.add hacc.1.nextEdge_free target item (c.movedIn acting now) false now'
        have hmoved : c'.movedIn acting now' = { c.movedIn acting now with now := now' } := by
          rw [movedIn, h.alike.settings]
          rfl
        rw [hmoved]
        exact hadd.bind fun _ _ _ hd => hd.agree (.ok true)

/-! ## Destroying -/

theorem Sound.childEdges_eq_nil (hs : c.Sound) {id : ItemId} {i : Item} (hi : c.item? id = some i)
    (hempty : i.isContainer = true → c.childEdges id = []) : i.childEdges = [] := by
  apply List.eq_nil_iff_forall_not_mem.mpr
  intro e he
  obtain ⟨edge, hedge, hcont⟩ := hs.child_stored hi he
  have hm : edge ∈ c.childEdges id := mem_childEdges_iff.mpr ⟨i, e, hi, hedge, .inl he⟩
  rw [hempty (hs.container_isContainer hedge (hcont ▸ hi))] at hm
  cases hm

namespace Twins

theorem detach (h : Twins c c') (id : ItemId) (l : List ItemId) :
    Agree ((detach id l).on c) ((detach id l).on c') := by
  induction l generalizing c c' with
  | nil => exact h.agree _
  | cons container rest ih =>
    rcases h.unlink? ⟨id, container⟩ with ⟨hu, hu'⟩ | ⟨d, d', hu, hu', hd⟩
    · rw [on_detach_of_none hu, on_detach_of_none hu']
      exact h.agree _
    · rw [on_detach_of_some hu, on_detach_of_some hu']
      exact ih hd

theorem isEmpty_childEdges (h : Twins c c') (id : ItemId) :
    (c'.childEdges id).isEmpty = (c.childEdges id).isEmpty := by
  have hlen := (h.children_perm id).length_eq
  rw [children, children, List.length_map, List.length_map] at hlen
  rw [Bool.eq_iff_iff, List.isEmpty_iff_length_eq_zero, List.isEmpty_iff_length_eq_zero, hlen]

theorem destroy (h : Twins c c') (id : ItemId) :
    Agree ((destroy id).on c) ((destroy id).on c') := by
  cases hi : c.item? id with
  | none =>
    rw [on_destroy_of_none hi, on_destroy_of_none (h.alike.item?_of_none hi)]
    exact h.agree _
  | some i =>
    obtain ⟨l, hi'⟩ := h.alike.item?_of_some hi
    have hcond : (Item.isContainer { i with childEdges := l } && !(c'.childEdges id).isEmpty) =
        (i.isContainer && !(c.childEdges id).isEmpty) := by
      rw [h.isEmpty_childEdges]
      rfl
    rw [on_destroy_of_some hi, on_destroy_of_some hi', hcond, h.alike.parents]
    split
    · exact h.agree _
    · next hempty =>
      have hdet := h.detach id (c.parents id)
      have hmembers : i.isContainer = true → c.childEdges id = [] := by simpa using hempty
      have hmembers' : i.isContainer = true → c'.childEdges id = [] := fun hc => by
        have hsame := h.isEmpty_childEdges id
        rw [hmembers hc] at hsame
        exact List.isEmpty_iff.mp hsame
      rcases hon : (Cabinet.detach id (c.parents id)).on c with ⟨x | _, d⟩ <;>
        rcases hon' : (Cabinet.detach id (c.parents id)).on c' with ⟨x' | _, d'⟩ <;>
        rw [hon, hon'] at hdet <;> obtain ⟨hans, hd⟩ := hdet <;> cases hans
      · exact hd.agree _
      · obtain ⟨j, hj, hp, hc⟩ := detach_parents_ok h.left.toListed hi hmembers hon
        rw [← h.alike.parents] at hon'
        obtain ⟨j', hj', hp', hc'⟩ := detach_parents_ok h.right.toListed hi' hmembers' hon'
        -- neither lists members any more, so they are the same
        have hjj : j' = j := by
          obtain ⟨l', hl'⟩ := hd.alike.item?_of_some hj
          have hnil := hd.left.childEdges_eq_nil hj hc
          have hnil' := hd.right.childEdges_eq_nil hj' hc'
          cases hj'.symm.trans hl'
          obtain rfl : l' = [] := hnil'
          rw [← hnil]
        subst hjj
        simp only [item_of_some hj, item_of_some hj']
        exact ⟨rfl, hd.alike.eraseItem id, hd.left.eraseItem hj hp hc,
          hd.right.eraseItem hj' hp' hc'⟩

/-! ## Items and marks -/

theorem insertItem (h : Twins c c') {item : Item} (hn : c.item? item.id = none) :
    Twins (c.insertItem item) (c'.insertItem item) :=
  ⟨h.alike.insertItem item, h.left.insertItem hn, h.right.insertItem (h.alike.item?_of_none hn)⟩

theorem modifyItem (h : Twins c c') (id : ItemId) {f : Item → Item}
    (ho : ∀ i, (f i).outline = i.outline)
    (hf : ∀ i l, (f { i with childEdges := l }).essence = (f i).essence) :
    Twins (c.modifyItem id f) (c'.modifyItem id f) :=
  h.of_retouched (.modifyItem c id ho) (.modifyItem c' id ho) (h.alike.modifyItem id hf)

theorem markDeletedIn (h : Twins c c') (key : Membership) (deleted : Bool) (now now' : Timestamp) :
    (∃ x, c.markDeletedIn key deleted now = .error x ∧
      c'.markDeletedIn key deleted now' = .error x) ∨
    ∃ b d d', c.markDeletedIn key deleted now = .ok (b, d) ∧
      c'.markDeletedIn key deleted now' = .ok (b, d') ∧ Twins d d' := by
  cases hi : c.item? key.item with
  | none =>
    refine .inl ⟨.itemNotFound key.item, ?_, ?_⟩
    · rw [Cabinet.markDeletedIn, item_of_none hi]
      rfl
    · rw [Cabinet.markDeletedIn, item_of_none (h.alike.item?_of_none hi)]
      rfl
  | some i =>
    obtain ⟨_, hi'⟩ := h.alike.item?_of_some hi
    cases hj : c.item? key.container with
    | none =>
      refine .inl ⟨.itemNotFound key.container, ?_, ?_⟩
      · rw [Cabinet.markDeletedIn, item_of_some hi, item_of_none hj]
        rfl
      · rw [Cabinet.markDeletedIn, item_of_some hi', item_of_none (h.alike.item?_of_none hj)]
        rfl
    | some j =>
      obtain ⟨_, hj'⟩ := h.alike.item?_of_some hj
      refine .inr ?_
      cases hx : c.index.find? key with
      | none =>
        have hx' : c'.index.find? key = none := h.alike.index ▸ hx
        refine ⟨false, c, c', ?_, ?_, h⟩
        · rw [Cabinet.markDeletedIn, item_of_some hi, item_of_some hj]
          simp only [bind, Except.bind, hx]
        · rw [Cabinet.markDeletedIn, item_of_some hi', item_of_some hj']
          simp only [bind, Except.bind, hx']
      | some e =>
        have hx' : c'.index.find? key = some e := h.alike.index ▸ hx
        obtain ⟨edge, he, _⟩ := h.left.index_iff.mp hx
        obtain ⟨edge', he', _⟩ := h.right.index_iff.mp hx'
        exact ⟨true, _, _, markDeletedIn_of_edge hi hj hx he deleted now,
          markDeletedIn_of_edge hi' hj' hx' he' deleted now', h.alike.markEdge e deleted now now',
          h.left.markEdge e deleted now, h.right.markEdge e deleted now'⟩

end Twins

end Cabinet

/-! ## Requests -/

/-- The answer without the number of edges that were entered in lists. -/
def Answer.uncounted : Answer → Answer
  | counted _ => done
  | a => a

/-- What a caller can ask for: an operation, other settings, or what a propagation does after an
addition or a removal. -/
inductive Request where
  | operation (op : Operation)
  | configure (settings : Settings)
  | onAdd (p : Propagation) (parent child : ItemId)
  | onRemove (p : Propagation) (parent child : ItemId)

namespace Request

/-- Meets a request. -/
def perform : Request → Edit Answer
  | operation op => op.perform
  | configure settings => do
    set { (← get) with settings }
    return .done
  | onAdd p parent child => do
    p.onAdd parent child
    return .done
  | onRemove p parent child => do
    p.onRemove parent child
    return .done

/-- The answer to a request, or why it failed. -/
def answer (r : Request) (c : Cabinet) : Except Failure Answer := (r.perform.on c).1

/-- The cabinet that a request leaves, whether it succeeds or fails. -/
def after (r : Request) (c : Cabinet) : Cabinet := (r.perform.on c).2

/-- The number of edges that a request makes. -/
def links (c : Cabinet) : Request → Nat
  | operation op => op.links c
  | _ => 0

/-- An item that is inserted is new. -/
def Fresh (c : Cabinet) : Request → Prop
  | operation op => op.Fresh c
  | _ => True

/-- The second request is the first one made at another time; if it is an addition, it may be
deferred where the first one is not, or the other way round. -/
inductive Recast : Request → Request → Prop
  | same (r : Request) : Recast r r
  | add (parent child : ItemId) (a : Addition) (defer : Bool) (now : Timestamp) :
      Recast (operation (.add parent child a)) (operation (.add parent child { a with defer, now }))
  | move (item origin target : ItemId) (acting : Principal) (unrestricted : Bool)
      (now now' : Timestamp) :
      Recast (operation (.move item origin target acting unrestricted now))
        (operation (.move item origin target acting unrestricted now'))
  | mark (key : Membership) (deleted : Bool) (now now' : Timestamp) :
      Recast (operation (.mark key deleted now)) (operation (.mark key deleted now'))

end Request

namespace Cabinet

theorem Sound.configure (h : c.Sound) (settings : Settings) : { c with settings }.Sound :=
  { h with }

theorem Accounted.configure (h : c.Accounted) (settings : Settings) :
    { c with settings }.Accounted :=
  { h with }

namespace Twins

variable {r r' : Request}

theorem addition (h : Twins c c') (ha : c.Accounted) (parent child : ItemId) (a : Addition)
    (defer : Bool) (now : Timestamp) :
    Agree ((Operation.add parent child a).perform.on c)
      ((Operation.add parent child { a with defer, now }).perform.on c') :=
  (h.add ha.nextEdge_free parent child a defer now).bind fun _ _ _ hd => hd.agree _

theorem relocation (h : Twins c c') (ha : c.Accounted) (item origin target : ItemId)
    (acting : Principal) (unrestricted : Bool) (now now' : Timestamp) :
    Agree ((Operation.move item origin target acting unrestricted now).perform.on c)
      ((Operation.move item origin target acting unrestricted now').perform.on c') :=
  (h.move ha item origin target acting unrestricted now now').bind fun _ _ _ hd => hd.agree _

theorem marking (h : Twins c c') (key : Membership) (deleted : Bool) (now now' : Timestamp) :
    Agree ((Operation.mark key deleted now).perform.on c)
      ((Operation.mark key deleted now').perform.on c') := by
  unfold Operation.perform
  rw [Edit.on_get_bind, Edit.on_get_bind, Edit.on_liftM_bind, Edit.on_liftM_bind]
  rcases h.markDeletedIn key deleted now now' with ⟨x, hm, hm'⟩ | ⟨b, d, d', hm, hm', hd⟩ <;>
    rw [hm, hm']
  · exact h.agree _
  · exact hd.agree _

theorem modification (h : Twins c c') (id : ItemId) {f : Item → Item}
    (ho : ∀ i, (f i).outline = i.outline)
    (hf : ∀ i l, (f { i with childEdges := l }).essence = (f i).essence) :
    Agree
      (match c.item id with
        | .ok _ => (.ok Answer.done, c.modifyItem id f)
        | .error x => (.error x, c))
      (match c'.item id with
        | .ok _ => (.ok Answer.done, c'.modifyItem id f)
        | .error x => (.error x, c')) := by
  cases hi : c.item? id with
  | none =>
    rw [item_of_none hi, item_of_none (h.alike.item?_of_none hi)]
    exact h.agree _
  | some i =>
    obtain ⟨_, hi'⟩ := h.alike.item?_of_some hi
    rw [item_of_some hi, item_of_some hi']
    exact (h.modifyItem id ho hf).agree _

theorem operate (h : Twins c c') (ha : c.Accounted) {op : Operation} (hf : op.Fresh c)
    (hflush : op ≠ .flush) : Agree (op.perform.on c) (op.perform.on c') := by
  cases op with
  | insert item => exact ⟨rfl, h.insertItem (SortedMap.contains_eq_false_iff.mp hf)⟩
  | add parent child a => exact h.addition ha parent child a a.defer a.now
  | remove parent child p => exact (h.remove parent child p).bind fun _ _ _ hd => hd.agree _
  | move item origin target acting unrestricted now => exact h.relocation ha ..
  | mark key deleted now => exact h.marking ..
  | setDeleted id deleted =>
    rw [Operation.on_setDeleted, Operation.on_setDeleted]
    exact h.modification id (fun _ => rfl) fun _ _ => rfl
  | setAccess id access =>
    rw [Operation.on_setAccess, Operation.on_setAccess]
    exact h.modification id (fun _ => rfl) fun _ _ => rfl
  | destroy id => exact (h.destroy id).bind fun _ _ _ hd => hd.agree _
  | flush => exact absurd rfl hflush

/-- **Every request gives the same answer on twins**, but for what a flush counts, and leaves twins.
-/
theorem step (h : Twins c c') (ha : c.Accounted) (hr : r.Recast r') (hf : r.Fresh c) :
    (r'.answer c').map Answer.uncounted = (r.answer c).map Answer.uncounted ∧
      Twins (r.after c) (r'.after c') := by
  have hagree : Agree (r.perform.on c) (r'.perform.on c') →
      (r'.answer c').map Answer.uncounted = (r.answer c).map Answer.uncounted ∧
        Twins (r.after c) (r'.after c') := fun h =>
    ⟨congrArg (Except.map Answer.uncounted) h.answer, h.twins⟩
  cases hr with
  | add parent child a defer now => exact hagree (h.addition ha parent child a defer now)
  | move item origin target acting unrestricted now now' => exact hagree (h.relocation ha ..)
  | mark key deleted now now' => exact hagree (h.marking ..)
  | same =>
    cases r with
    | configure settings =>
      exact hagree ⟨rfl, ⟨rfl, h.alike.item, h.alike.edge, h.alike.index, h.alike.nextEdge,
        h.alike.generation⟩, h.left.configure settings, h.right.configure settings⟩
    | onAdd p parent child =>
      exact hagree ((h.onAdd p parent child).bind fun _ _ _ hd => hd.agree _)
    | onRemove p parent child =>
      exact hagree ((h.onRemove p parent child).bind fun _ _ _ hd => hd.agree _)
    | operation op =>
      by_cases hflush : op = .flush
      · subst hflush
        exact ⟨rfl, h.flushLeft.flushRight⟩
      · exact hagree (h.operate ha hf hflush)

end Twins

end Cabinet

/-! ## Runs -/

/-- **A request is a sequence of changes**, or it changes the settings. -/
theorem Request.changes_links {r : Request} (hl : c.Listed) (hf : r.Fresh c) :
    (∃ settings, r = configure settings) ∨ Changes (r.links c) c (r.after c) := by
  cases r with
  | operation op => exact .inr (op.changes_links hl hf)
  | configure settings => exact .inl ⟨settings, rfl⟩
  | onAdd p parent child =>
    rw [after, perform, Edit.on_bind_pure]
    exact .inr (.retouch (p.retouched_onAdd parent child c))
  | onRemove p parent child =>
    rw [after, perform, Edit.on_bind_pure]
    exact .inr (.retouch (p.retouched_onRemove parent child c))

theorem Request.accounted_after {r : Request} (hs : c.Accounted) (hf : r.Fresh c)
    (hn : c.nextEdge.toNat + r.links c < 2 ^ 64) :
    (r.after c).Accounted ∧ (r.after c).nextEdge.toNat = c.nextEdge.toNat + r.links c := by
  rcases changes_links hs.toListed hf with ⟨settings, rfl⟩ | hc
  · exact ⟨hs.configure settings, rfl⟩
  · exact hc.accounted hs hn

/-- What two runs from empty cabinets lead to, with the number of edges that either makes.  They
make the same requests (`common`), in each at its own time and with its own choice of what to defer,
and either may list its deferred edges at any point. -/
inductive Paired (settings : Settings) : Nat → Cabinet → Cabinet → Prop
  | start (epoch epoch' : Epoch) :
      Paired settings 0 (.empty settings epoch) (.empty settings epoch')
  | common {n : Nat} {c c' : Cabinet} {r r' : Request} : Paired settings n c c' → r.Recast r' →
      r.Fresh c → r'.Fresh c' → Paired settings (n + r.links c) (r.after c) (r'.after c')
  | flushLeft {n : Nat} {c c' : Cabinet} : Paired settings n c c' →
      Paired settings n c.flushDeferred.1 c'
  | flushRight {n : Nat} {c c' : Cabinet} : Paired settings n c c' →
      Paired settings n c c'.flushDeferred.1

section Paired

variable {settings : Settings} {n : Nat}

theorem Paired.next {r r' : Request} (h : ∃ m ≤ n, Paired settings m c c') (hr : r.Recast r')
    (hf : r.Fresh c) (hf' : r'.Fresh c') :
    ∃ m ≤ n + 1, Paired settings m (r.after c) (r'.after c') := by
  obtain ⟨m, hm, h⟩ := h
  refine ⟨m + r.links c, ?_, h.common hr hf hf'⟩
  have hlinks : r.links c ≤ 1 := by
    cases r with
    | operation op => exact op.links_le_one c
    | _ => exact Nat.zero_le 1
  omega

/-- **Paired runs lead to twins**, as long as there are numbers for new edges. -/
theorem Paired.twins (h : Paired settings n c c') (hn : n < 2 ^ 64 - 1) :
    Twins c c' ∧ c.Accounted ∧ c.nextEdge.toNat = 1 + n := by
  induction h with
  | start epoch epoch' =>
    exact ⟨⟨⟨rfl, fun _ => rfl, fun _ => rfl, rfl, rfl, rfl⟩, sound_empty settings epoch,
      sound_empty settings epoch'⟩, accounted_empty settings epoch, rfl⟩
  | common _ hr hf _ ih =>
    obtain ⟨htwins, hacc, hnext⟩ := ih (by omega)
    obtain ⟨hacc', hnext'⟩ := Request.accounted_after hacc hf (by omega)
    exact ⟨(htwins.step hacc hr hf).2, hacc', by omega⟩
  | flushLeft _ ih =>
    obtain ⟨htwins, hacc, hnext⟩ := ih hn
    obtain ⟨hacc', hnext'⟩ := (Change.flush _).accounted hacc (by omega)
    exact ⟨htwins.flushLeft, hacc', by omega⟩
  | flushRight _ ih =>
    obtain ⟨htwins, hacc, hnext⟩ := ih hn
    exact ⟨htwins.flushRight, hacc, hnext⟩

/-- **Deferral makes no difference.**  At every common step of two paired runs the answers are the
same, but for what a flush counts, and so are afterwards the edges with their numbers and owners,
the index, the containers of every item in their order, the members of every container and the
visible ones among them, everything else about every item, the number of the next edge, the
generation, every breadcrumb and the outcome of the check.  And listing deferred edges leaves every
list of members as it was. -/
theorem paired_agree (h : Paired settings n c c') (hn : n < 2 ^ 64 - 1) {r r' : Request}
    (hr : r.Recast r') (hf : r.Fresh c) :
    (r'.answer c').map Answer.uncounted = (r.answer c).map Answer.uncounted ∧
      (∀ e, ((r'.after c').edge? e).map Edge.essence = ((r.after c).edge? e).map Edge.essence) ∧
      (r'.after c').index = (r.after c).index ∧
      (∀ id, (r'.after c').parents id = (r.after c).parents id) ∧
      (∀ id, ((r'.after c').children id).Perm ((r.after c).children id) ∧
        ((r'.after c').visibleChildren id).Perm ((r.after c).visibleChildren id)) ∧
      (∀ id, ((r'.after c').item? id).map Item.essence =
        ((r.after c).item? id).map Item.essence) ∧
      (r'.after c').nextEdge = (r.after c).nextEdge ∧
      (r'.after c').generation = (r.after c).generation ∧
      (∀ t, (r'.after c').breadcrumb t = (r.after c).breadcrumb t) ∧
      (r'.after c').verify = (r.after c).verify ∧
      ∀ (b : Cabinet) (id : ItemId), b.flushDeferred.1.children id = b.children id := by
  obtain ⟨htwins, hacc, _⟩ := h.twins hn
  obtain ⟨hanswer, hafter⟩ := htwins.step hacc hr hf
  exact ⟨hanswer, hafter.alike.edge, hafter.alike.index, hafter.alike.parents,
    fun id => ⟨hafter.children_perm id, hafter.visibleChildren_perm id⟩, hafter.alike.item,
    hafter.alike.nextEdge, hafter.alike.generation, hafter.alike.sameAbove.breadcrumb,
    hafter.right.verify.trans hafter.left.verify.symm, children_flushDeferred⟩

/-- A document that is filed late is listed after another one, and goes all the same. -/
theorem paired_agree_late : ∃ (n : Nat) (c c' : Cabinet), Paired .standard n c c' ∧
    c.children (.ofNat 1) = [.ofNat 3, .ofNat 2] ∧ c'.children (.ofNat 1) = [.ofNat 2, .ofNat 3] ∧
    ∀ id,
      ((Request.after (.operation (.remove (.ofNat 1) (.ofNat 2) .inherit)) c').children id).Perm
        ((Request.after (.operation (.remove (.ofNat 1) (.ofNat 2) .inherit)) c).children id) := by
  have h₀ : ∃ m ≤ 0, Paired .standard m (.empty .standard 0) (.empty .standard 1) :=
    ⟨0, Nat.le_refl 0, .start 0 1⟩
  have h₁ := Paired.next h₀ (.same (.operation (.insert (.bare 1 (.container .folder) [])))) rfl rfl
  have h₂ := Paired.next h₁ (.same (.operation (.insert (.bare 2 .document [])))) rfl rfl
  have h₃ := Paired.next h₂ (.same (.operation (.insert (.bare 3 .document [])))) rfl rfl
  have h₄ := Paired.next h₃ (.add (.ofNat 1) (.ofNat 2)
    { Addition.bare .inherit with defer := true } false .start) trivial trivial
  have h₅ := Paired.next h₄ (.same (.operation (.add (.ofNat 1) (.ofNat 3) (.bare .inherit))))
    trivial trivial
  obtain ⟨n, hn, h⟩ := h₅
  have hagree := paired_agree h.flushLeft (by omega)
    (.same (.operation (.remove (.ofNat 1) (.ofNat 2) .inherit))) trivial
  refine ⟨n, _, _, h.flushLeft, ?_, ?_, fun id => (hagree.2.2.2.2.1 id).1⟩
  · cbv
  · cbv

end Paired

end Filing
