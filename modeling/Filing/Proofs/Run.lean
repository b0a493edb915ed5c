import Filing.Proofs.Placement

/-!
# Runs

A run is a sequence of operations, failing ones included, of which each may depend on what the
earlier ones have left (`Reached`).  The edges that it makes are counted, because the numbers of
edges are words of 64 bits.  A cabinet is *built* if a run leads to it from an empty one and every
item that was inserted was new then (`Built`).

* `Reached.changes`: **a run is a sequence of elementary changes**, and makes as many edges.
* `built_sound`: every cabinet that is built with numbers to spare is sound.
* `built_verified`: **it passes the check**, no item lies above itself, and every edge is listed
  exactly once on either side.
-/

namespace Filing

open Cabinet Relation

/-- The first instant of the year 1970. -/
def Timestamp.start : Timestamp :=
  { date := ⟨1970, 1, 1, by decide⟩, hour := 0, minute := 0, second := 0, nano := 0
    hour_lt := by decide, minute_lt := by decide, second_le := by decide, nano_lt := by decide }

/-! ## Operations -/

/-- A change that a caller can ask for. -/
inductive Operation where
  | insert (item : Item)
  | add (parent child : ItemId) (a : Addition)
  | remove (parent child : ItemId) (propagation : Propagation)
  | move (item origin target : ItemId) (acting : Principal) (unrestricted : Bool) (now : Timestamp)
  | mark (key : Membership) (deleted : Bool) (now : Timestamp)
  | setDeleted (id : ItemId) (deleted : Bool)
  | setAccess (id : ItemId) (access : AccessList)
  | destroy (id : ItemId)
  | flush

/-- What an operation answers. -/
inductive Answer where
  | done
  /-- How an addition was met. -/
  | placed (a : Added)
  /-- Whether there was something to change. -/
  | told (b : Bool)
  /-- The item that went. -/
  | taken (i : Item)
  /-- The number of edges that were entered in lists. -/
  | counted (n : Nat)

namespace Operation

/-- Runs an operation. -/
def perform : Operation → Edit Answer
  | insert item => do
    set ((← get).insertItem item)
    return .done
  | add parent child a => return .placed (← Filing.add parent child a)
  | remove parent child p => return .told (← Filing.remove parent child p)
  | move item origin target acting unrestricted now =>
    return .told (← Filing.move item origin target acting unrestricted now)
  | mark key deleted now => do
    let (b, c) ← (← get).markDeletedIn key deleted now
    set c
    return .told b
  | setDeleted id deleted => do
    set (← (← get).setDeleted id deleted)
    return .done
  | setAccess id access => do
    let c ← get
    let _ ← c.item id
    set (c.setAccess id access)
    return .done
  | destroy id => return .taken (← Cabinet.destroy id)
  | flush => do
    let (c, n) := (← get).flushDeferred
    set c
    return .counted n

/-- The cabinet that an operation leaves, whether it succeeds or fails. -/
def after (op : Operation) (c : Cabinet) : Cabinet := (op.perform.on c).2

/-- The number of edges that an operation makes: the number of the next edge tells. -/
def links (op : Operation) (c : Cabinet) : Nat :=
  if (op.after c).nextEdge = c.nextEdge then 0 else 1

/-- An item that is inserted is new. -/
def Fresh (c : Cabinet) : Operation → Prop
  | insert item => c.contains item.id = false
  | _ => True

section After

variable (c : Cabinet)

theorem after_add (parent child : ItemId) (a : Addition) :
    (add parent child a).after c = ((Filing.add parent child a).on c).2 := by
  rw [after, perform, Edit.on_bind_pure]

theorem after_remove (parent child : ItemId) (p : Propagation) :
    (remove parent child p).after c = ((Filing.remove parent child p).on c).2 := by
  rw [after, perform, Edit.on_bind_pure]

theorem after_move (item origin target : ItemId) (acting : Principal) (unrestricted : Bool)
    (now : Timestamp) : (move item origin target acting unrestricted now).after c =
      ((Filing.move item origin target acting unrestricted now).on c).2 := by
  rw [after, perform, Edit.on_bind_pure]

theorem after_destroy (id : ItemId) :
    (destroy id).after c = ((Cabinet.destroy id).on c).2 := by
  rw [after, perform, Edit.on_bind_pure]

theorem after_mark_eq (key : Membership) (deleted : Bool) (now : Timestamp) :
    (mark key deleted now).after c =
      match c.markDeletedIn key deleted now with
      | .ok (_, c') => c'
      | .error _ => c := by
  rw [after, perform, Edit.on_get_bind, Edit.on_liftM_bind]
  cases c.markDeletedIn key deleted now <;> rfl

theorem after_mark (key : Membership) (deleted : Bool) (now : Timestamp) :
    (mark key deleted now).after c = c ∨
      ∃ e, (mark key deleted now).after c = c.markEdge e deleted now := by
  rw [after_mark_eq]
  rcases c.markDeletedIn_cases key deleted now with ⟨x, hm⟩ | hm | ⟨e, _, _, _, hm⟩ <;> rw [hm]
  · exact .inl rfl
  · exact .inl rfl
  · exact .inr ⟨e, rfl⟩

theorem on_setDeleted (id : ItemId) (deleted : Bool) :
    (setDeleted id deleted).perform.on c =
      match c.item id with
      | .ok _ => (.ok .done, c.modifyItem id ({ · with deleted }))
      | .error x => (.error x, c) := by
  rw [perform, Edit.on_get_bind, Edit.on_liftM_bind, Cabinet.setDeleted]
  cases c.item id <;> rfl

theorem after_setDeleted (id : ItemId) (deleted : Bool) :
    (setDeleted id deleted).after c = c ∨
      (setDeleted id deleted).after c = c.modifyItem id ({ · with deleted }) := by
  rw [after, on_setDeleted]
  cases c.item id with
  | error => exact .inl rfl
  | ok i => exact .inr rfl

theorem on_setAccess (id : ItemId) (access : AccessList) :
    (setAccess id access).perform.on c =
      match c.item id with
      | .ok _ => (.ok .done, c.setAccess id access)
      | .error x => (.error x, c) := by
  rw [perform, Edit.on_get_bind, Edit.on_liftM_bind]
  cases c.item id <;> rfl

theorem after_setAccess (id : ItemId) (access : AccessList) :
    (setAccess id access).after c = c ∨
      (setAccess id access).after c = c.setAccess id access := by
  rw [after, on_setAccess]
  cases c.item id with
  | error => exact .inl rfl
  | ok i => exact .inr rfl

end After

/-- **An operation is a sequence of changes** that makes at most one edge. -/
theorem changes_after {c : Cabinet} (hl : c.Listed) {op : Operation} (hf : op.Fresh c) :
    ∃ n ≤ 1, Changes n c (op.after c) := by
  cases op with
  | insert item =>
    have hn : c.item? item.id = none := SortedMap.contains_eq_false_iff.mp hf
    exact ⟨0, by omega, .single (.insert hn)⟩
  | add parent child a =>
    rw [after_add]
    exact changes_add parent child a c
  | remove parent child p =>
    rw [after_remove]
    exact ⟨0, by omega, changes_remove ..⟩
  | move item origin target acting unrestricted now =>
    rw [after_move]
    exact changes_move item origin target acting unrestricted now c
  | mark key deleted now =>
    rcases after_mark c key deleted now with h | ⟨e, h⟩ <;> rw [h]
    · exact ⟨0, by omega, .refl c⟩
    · exact ⟨0, by omega, .single (.mark c e deleted now)⟩
  | setDeleted id deleted =>
    rcases after_setDeleted c id deleted with h | h <;> rw [h]
    · exact ⟨0, by omega, .refl c⟩
    · exact ⟨0, by omega, .retouch (Retouched.modifyItem c id fun _ => rfl)⟩
  | setAccess id access =>
    rcases after_setAccess c id access with h | h <;> rw [h]
    · exact ⟨0, by omega, .refl c⟩
    · exact ⟨0, by omega, .retouch (Retouched.setAccess c id access)⟩
  | destroy id =>
    rw [after_destroy]
    exact ⟨0, by omega, changes_destroy hl id⟩
  | flush => exact ⟨0, by omega, .single (.flush c)⟩

theorem links_le_one (op : Operation) (c : Cabinet) : op.links c ≤ 1 := by
  unfold links
  split <;> omega

theorem changes_links {c : Cabinet} (hl : c.Listed) {op : Operation} (hf : op.Fresh c) :
    Changes (op.links c) c (op.after c) := by
  obtain ⟨n, hn, h⟩ := changes_after hl hf
  have hnext := h.nextEdge
  obtain rfl | rfl : n = 0 ∨ n = 1 := by omega
  · rw [Function.iterate_zero_apply] at hnext
    rwa [links, if_pos hnext]
  · rw [Function.iterate_one] at hnext
    rwa [links, if_neg (hnext ▸ EdgeId.next_ne _)]

end Operation

/-! ## Runs -/

/-- What a run of allowed operations leads to, with the number of edges that it makes. -/
inductive Reached (allowed : Cabinet → Operation → Prop) (c₀ : Cabinet) : Nat → Cabinet → Prop
  | start : Reached allowed c₀ 0 c₀
  | step {n : Nat} {c : Cabinet} (op : Operation) : Reached allowed c₀ n c → allowed c op →
      Reached allowed c₀ (n + op.links c) (op.after c)

/-- What a run leads to from an empty cabinet if every item that it inserts is new. -/
def Built (settings : Settings) (epoch : Epoch) : Nat → Cabinet → Prop :=
  Reached Operation.Fresh (Cabinet.empty settings epoch)

section Reached

variable {allowed : Cabinet → Operation → Prop} {c₀ c : Cabinet} {n : Nat}

theorem Reached.mono {allowed' : Cabinet → Operation → Prop}
    (h : Reached allowed c₀ n c) (hall : ∀ c op, allowed c op → allowed' c op) :
    Reached allowed' c₀ n c := by
  induction h with
  | start => exact .start
  | step op _ ha ih => exact ih.step op (hall _ op ha)

/-- **A run is a sequence of changes.**  The bound keeps the numbers of edges apart, without which
the lists of an item might not name its edges. -/
theorem Reached.changes (h : Reached Operation.Fresh c₀ n c) (ha : c₀.Accounted)
    (hn : c₀.nextEdge.toNat + n < 2 ^ 64) : Changes n c₀ c := by
  induction h with
  | start => exact .refl c₀
  | step op _ hf ih =>
    have hc := ih (by omega)
    exact hc.trans (op.changes_links (hc.accounted ha (by omega)).1.toListed hf)

/-- Each operation of a list is allowed when its turn comes. -/
def AllAllowed (allowed : Cabinet → Operation → Prop) : List Operation → Cabinet → Prop
  | [], _ => True
  | op :: rest, c => allowed c op ∧ AllAllowed allowed rest (op.after c)

/-- The cabinet that a list of operations leaves. -/
def afterAll (l : List Operation) (c : Cabinet) : Cabinet := l.foldl (fun c op => op.after c) c

/-- **A list of allowed operations is a run**, which makes at most one edge for each. -/
theorem reached_afterAll {l : List Operation} (h : Reached allowed c₀ n c)
    (hl : AllAllowed allowed l c) :
    ∃ m ≤ n + l.length, Reached allowed c₀ m (afterAll l c) := by
  induction l generalizing n c with
  | nil => exact ⟨n, by omega, h⟩
  | cons op rest ih =>
    obtain ⟨m, hm, hr⟩ := ih (h.step op hl.1) hl.2
    have := op.links_le_one c
    rw [List.length_cons]
    exact ⟨m, by omega, hr⟩

end Reached

/-! ## Bare items -/

/-- An item of which no more is known than its identifier, its kind and its grants. -/
def Item.bare (id : Nat) (kind : ItemKind) (access : List Grant) : Item :=
  { id := .ofNat id, name := "", owner := .anonymous, kind, deleted := false
    access := .ofList access, createdAt := .start, parentEdges := [], childEdges := [] }

/-- An addition by nobody in particular. -/
def Addition.bare (propagation : Propagation) : Addition :=
  { policy := .standard, acting := .anonymous, propagation, defer := false, now := .start }

/-- A folder with grants, and a document that is put into it. -/
def Operation.filing (access : List Grant) : List Operation :=
  [.insert (.bare 1 (.container .folder) access), .insert (.bare 2 .document []),
    .add (.ofNat 1) (.ofNat 2) (.bare .inherit)]

/-- The cabinet that comes of it. -/
def Cabinet.filed (access : List Grant) : Cabinet :=
  afterAll (Operation.filing access) (.empty .standard 0)

/-! ## Built cabinets -/

theorem accounted_empty (settings : Settings) (epoch : Epoch) :
    (Cabinet.empty settings epoch).Accounted where
  toListed := (sound_empty settings epoch).toListed
  number_lt h := absurd h.symm (Option.some_ne_none _)
  size_eq := rfl

section Built

variable {settings : Settings} {epoch : Epoch} {n : Nat} {c : Cabinet}

theorem Built.changes (h : Built settings epoch n c) (hn : n < 2 ^ 64 - 1) :
    Changes n (Cabinet.empty settings epoch) c :=
  Reached.changes h (accounted_empty settings epoch) (by
    show 1 + n < 2 ^ 64
    omega)

theorem built_afterAll {l : List Operation}
    (hl : AllAllowed Operation.Fresh l (.empty settings epoch)) :
    ∃ n ≤ l.length, Built settings epoch n (afterAll l (.empty settings epoch)) := by
  obtain ⟨n, hn, h⟩ := reached_afterAll (.start : Reached _ _ 0 _) hl
  exact ⟨n, by omega, h⟩

/-- **Built cabinets are sound.** -/
theorem Built.sound (h : Built settings epoch n c) (hn : n < 2 ^ 64 - 1) : c.Sound :=
  (h.changes hn).sound (sound_empty settings epoch) (accounted_empty settings epoch) (by
    show 1 + n < 2 ^ 64
    omega)

theorem Built.accounted (h : Built settings epoch n c) (hn : n < 2 ^ 64 - 1) :
    c.Accounted ∧ c.nextEdge.toNat = 1 + n :=
  (h.changes hn).accounted (accounted_empty settings epoch) (by
    show 1 + n < 2 ^ 64
    omega)

/-- **Every cabinet that is built passes the check.**  No item comes back to itself through its
containers, and every stored edge is listed once by its item and once by its container or among the
deferred edges, and by nothing else. -/
theorem built_verified (h : Built settings epoch n c) (hn : n < 2 ^ 64 - 1) :
    c.verify = .ok () ∧ (∀ id, ¬TransGen (fun a b => b ∈ c.parents a) id id) ∧
      ∀ e edge, c.edge? e = some edge →
        ((∃ i, c.item? edge.item = some i ∧ i.parentEdges.count e = 1) ∧ c.itemSide.count e = 1) ∧
        (∃ i, c.item? edge.container = some i ∧ i.childEdges.count e + c.deferred.count e = 1) ∧
        c.containerSide.count e = 1 := by
  have hs := h.sound hn
  refine ⟨hs.verify, fun id hcyc => ?_, fun e edge he => ?_⟩
  · refine hs.acyclic id (transGen_swap.mp (TransGen.mono (fun a b hab => ?_) id id hcyc))
    exact hs.mem_parents_iff.mp hab
  · obtain ⟨hitem, hcont⟩ := hs.count_eq_one he
    obtain ⟨hmi, hmc⟩ := hs.mem_sides he
    exact ⟨⟨hitem, List.count_eq_one_of_mem hs.nodup_itemSide hmi⟩, hcont,
      List.count_eq_one_of_mem hs.nodup_containerSide hmc⟩

theorem built_verified_filed : (filed []).verify = .ok () := by
  have hl : AllAllowed Operation.Fresh (Operation.filing []) (.empty .standard 0) :=
    ⟨rfl, rfl, trivial, trivial⟩
  obtain ⟨n, hn, h⟩ := built_afterAll hl
  have hn : n ≤ 3 := hn
  exact (built_verified h (by omega)).1

end Built

end Filing
