import Filing.Proofs.Admission
import Filing.Proofs.Membership
import Filing.Proofs.Inheritance.Withdrawal

/-!
# A move does all of it or nothing

A move checks, removes and adds, and the addition checks once more, on the cabinet that the removal
has left.  Nothing is rolled back, and nothing needs to be: what was allowed before the removal is
allowed after it (`Unlinked.checkAdd_ok`), since a membership less puts nothing above the target and
a flow of grants changes no kind.

* `Orderly.on_move`: **once a move is allowed, it succeeds**.
* `moves_all_or_nothing`: **a move leaves the cabinet exactly as it was, or takes the item out of
  the one container and into the other and leaves every other membership alone** (`Relocated`).
-/

namespace Filing

open Cabinet Relation

variable {c c' : Cabinet} {item origin target : ItemId} {unrestricted : Bool}

namespace Cabinet

/-- **What a move leaves.**  The item has left the one container and is in the other.  Every other
edge is stored as it was, under its number, with its owner and its mark; where the item was in the
other container before, the edge that it has there is one of these. -/
structure Relocated (c : Cabinet) (item origin target : ItemId) (acting : Principal)
    (now : Timestamp) (c' : Cabinet) : Prop where
  sound : c'.Sound
  apart : c'.Apart item origin
  joined : c'.Joined item target
  edge : ∀ e edge, c'.edge? e = some edge ↔
    (c.edge? e = some edge ∧ edge.key ≠ ⟨item, origin⟩) ∨
      ¬c.Holds target item ∧ e = c.nextEdge ∧ edge = .make c.nextEdge ⟨item, target⟩ acting now

theorem mayMove_eq_ok_true (h : c.mayMove item origin target unrestricted = .ok true) :
    origin ≠ target ∧ c.isMember ⟨item, origin⟩ = true ∧
      c.checkAdd target item .standard = .ok () := by
  -- where the move is restricted or not, the addition is checked last
  have hlast : ∀ {x : Except Failure Unit}, (x >>= fun _ => pure true) = .ok true → x = .ok () :=
    fun hx => by
      obtain ⟨⟨⟩, hx, _⟩ := bind_eq_ok_iff.mp hx
      exact hx
  rw [mayMove] at h
  split at h
  · cases h
  next hout =>
    rw [Bool.or_eq_true, decide_eq_true_eq, Bool.not_eq_true', not_or, Bool.not_eq_false] at hout
    refine ⟨hout.1, hout.2, ?_⟩
    obtain ⟨i, _, h⟩ := bind_eq_ok_iff.mp h
    split at h
    · cases h
    · split at h
      · obtain ⟨s, _, h⟩ := bind_eq_ok_iff.mp h
        obtain ⟨d, _, h⟩ := bind_eq_ok_iff.mp h
        split at h
        · cases h
        · split at h
          · cases h
          · exact hlast h
      · exact hlast h

/-- **What was allowed before a removal is allowed after it.** -/
theorem Unlinked.checkAdd_ok {key : Membership} {e : EdgeId} {c₁ : Cabinet}
    (hu : c.Unlinked key e c₁) (hr : c₁.Regranted c') (hs : c.Sound)
    (h : c.checkAdd target item .standard = .ok ()) :
    c'.checkAdd target item .standard = .ok () := by
  obtain ⟨hne, ⟨i, j, hi, hcont, hj, hallow⟩, hv⟩ := checkAdd_eq_ok_iff.mp h
  have hs' := hr.retouched.sound (hs.unlinked hu)
  obtain ⟨_, hi'⟩ := hr.item?_of_some (hu.item_after hi)
  obtain ⟨_, hj'⟩ := hr.item?_of_some (hu.item_after hj)
  refine checkAdd_eq_ok_iff.mpr ⟨hne, ⟨_, _, hi', hcont, hj', hallow⟩, ?_⟩
  have hnot := ((checkCycle_eq_acyclic_iff hs.toCoherent hs.acyclic).mp hv).2
  refine (checkCycle_eq_acyclic_iff hs'.toCoherent hs'.acyclic).mpr ⟨⟨_, hi'⟩, fun hup => hnot ?_⟩
  -- a membership less puts nothing above the target
  exact ReflTransGen.mono (fun p x hh => hu.holds_before (hr.retouched.holds_iff.mp hh)) _ _ hup

theorem Entered.edge?_eq_some_iff {parent child : ItemId} {a : Addition}
    (h : c.Entered parent child a c') (hn : c.edge? c.nextEdge = none) {e : EdgeId} {edge : Edge} :
    c'.edge? e = some edge ↔ c.edge? e = some edge ∨
      e = c.nextEdge ∧ edge = .make c.nextEdge ⟨child, parent⟩ a.acting a.now := by
  have hedge : c'.edge? e = if e = c.nextEdge then
      some (.make c.nextEdge ⟨child, parent⟩ a.acting a.now) else c.edge? e := by
    rw [edge?, h.edges]
    exact SortedMap.find?_insert c.edges c.nextEdge e _
  rw [hedge]
  split
  · next he => simp [he, hn, eq_comm]
  · next he => simp [he]

theorem Sound.apart_of_not_holds (h : c.Sound) (hh : ¬c.Holds origin item) : c.Apart item origin :=
  (h.joined_or_apart item origin).resolve_left fun hj => hh (h.isMember_iff.mp hj.indexed)

theorem Sound.joined_of_holds (h : c.Sound) (hh : c.Holds target item) : c.Joined item target := by
  refine (h.joined_or_apart item target).resolve_right fun ha => ?_
  have hm := h.isMember_iff.mpr hh
  rw [ha.indexed] at hm
  cases hm

theorem Relocated.of_edges {acting : Principal} {now : Timestamp} (hs : c'.Sound)
    (hne : origin ≠ target) (hin : c'.Holds target item)
    (hedge : ∀ e edge, c'.edge? e = some edge ↔
      (c.edge? e = some edge ∧ edge.key ≠ ⟨item, origin⟩) ∨
        ¬c.Holds target item ∧ e = c.nextEdge ∧
          edge = .make c.nextEdge ⟨item, target⟩ acting now) :
    c.Relocated item origin target acting now c' where
  sound := hs
  joined := hs.joined_of_holds hin
  edge := hedge
  apart := by
    refine hs.apart_of_not_holds ?_
    rintro ⟨e, edge, he, hcontainer, hitem⟩
    rcases (hedge e edge).mp he with ⟨_, hkey⟩ | ⟨_, _, rfl⟩
    · exact hkey (by rw [Edge.key, hitem, hcontainer])
    · exact hne hcontainer.symm

/-- **Once a move is allowed, it succeeds**: the item can be taken out, and the second check allows
what the first one did. -/
theorem Orderly.on_move (h : c.Orderly) (hlt : c.nextEdge.toNat + 1 < 2 ^ 64) (acting : Principal)
    (now : Timestamp) (hmay : c.mayMove item origin target unrestricted = .ok true) :
    ∃ c₁ c', (remove origin item c.settings.movePolicy).on c = (.ok true, c₁) ∧
      c₁.checkAdd target item .standard = .ok () ∧
      (move item origin target acting unrestricted now).on c = (.ok true, c') ∧
      c.Relocated item origin target acting now c' := by
  obtain ⟨hne, hmember, hadd⟩ := mayMove_eq_ok_true hmay
  obtain ⟨e, c₀, c₁, _, hu, hr, hon, _⟩ :=
    h.toSound.on_remove (h.isMember_iff.mp hmember) c.settings.movePolicy
  have hadd₁ := hu.checkAdd_ok hr h.toSound hadd
  have hedge₁ : ∀ e edge, c₁.edge? e = some edge ↔
      c.edge? e = some edge ∧ edge.key ≠ ⟨item, origin⟩ := by
    intro e edge
    rw [hr.retouched.edge?]
    exact hu.edge?_eq_some_iff h.toIndexed
  have hnext : c₁.nextEdge = c.nextEdge := hr.retouched.nextEdge.trans hu.nextEdge
  have hholds₁ : c₁.Holds target item ↔ c.Holds target item := by
    rw [hr.retouched.holds_iff, hu.holds_iff h.toIndexed]
    exact and_iff_left fun heq => hne heq.1.symm
  have ho₁ : c₁.Orderly := by
    have hchanges := changes_remove origin item c.settings.movePolicy c
    rw [hon] at hchanges
    exact hchanges.orderly h
  have hmove : (move item origin target acting unrestricted now).on c =
      (((add target item (c.movedIn acting now)).on c₁).1.map fun _ => true,
        ((add target item (c.movedIn acting now)).on c₁).2) := by
    rw [Filing.on_move, hmay]
    dsimp only
    rw [Edit.on_bind_of_ok hon]
    exact Edit.on_bind_pure ..
  refine ⟨c₁, ?_⟩
  -- the item may be in the target already, and then no edge is made
  by_cases hh : c₁.Holds target item
  · obtain ⟨e', edge, he, hcontainer, hitem⟩ := hh
    have hkey : edge.key = ⟨item, target⟩ := by rw [Edge.key, hitem, hcontainer]
    rw [on_add_present hadd₁ (ho₁.index_iff.mpr ⟨edge, he, hkey⟩)] at hmove
    refine ⟨c₁, hon, hadd₁, hmove, .of_edges ho₁.toSound hne ⟨e', edge, he, hcontainer, hitem⟩ ?_⟩
    intro e edge'
    have hin := hholds₁.mp ⟨e', edge, he, hcontainer, hitem⟩
    rw [hedge₁]
    simp only [hin, not_true_eq_false, false_and, or_false]
  · obtain ⟨c', hentered, hc'⟩ :=
      ho₁.on_add_entered (a := c.movedIn acting now) (hnext ▸ hlt) hadd₁ hh
    rw [hentered] at hmove
    have hout : ¬c.Holds target item := fun hin => hh (hholds₁.mpr hin)
    have hs' : c'.Sound := by
      obtain ⟨n, hn, hch⟩ := changes_move item origin target acting unrestricted now c
      rw [hmove] at hch
      exact hch.sound h.toSound h.toAccounted (by omega)
    have hedge : ∀ e edge, c'.edge? e = some edge ↔
        (c.edge? e = some edge ∧ edge.key ≠ ⟨item, origin⟩) ∨
          ¬c.Holds target item ∧ e = c.nextEdge ∧
            edge = .make c.nextEdge ⟨item, target⟩ acting now := by
      intro e edge
      rw [hc'.edge?_eq_some_iff ho₁.nextEdge_free, hedge₁, hnext, and_iff_right hout]
      rfl
    refine ⟨c', hon, hadd₁, hmove, .of_edges hs' hne ?_ hedge⟩
    exact ⟨c.nextEdge, _, (hedge _ _).mpr (.inr ⟨hout, rfl, rfl⟩), rfl, rfl⟩

end Cabinet

/-! ## Runs -/

namespace Request

section Run

variable {settings : Settings} {epoch : Epoch} {l : List Request}

/-- **A move does all of it or nothing**, in every cabinet that a run from an empty one comes to and
whichever way grants follow a move.  It fails or is out of the question, and the cabinet is exactly
as it was; or it is allowed, and then the removal succeeds, the second check allows it again, and
the item is where it was to go. -/
theorem moves_all_or_nothing (hl : AllAllowed Fresh l (.empty settings epoch))
    (hn : linksAll l (.empty settings epoch) < 2 ^ 64 - 2)
    (hc : afterAll l (.empty settings epoch) = c) (item origin target : ItemId)
    (acting : Principal) (unrestricted : Bool) (now : Timestamp) :
    (∃ x, c.mayMove item origin target unrestricted = .error x ∧
      (move item origin target acting unrestricted now).on c = (.error x, c)) ∨
    (c.mayMove item origin target unrestricted = .ok false ∧
      (move item origin target acting unrestricted now).on c = (.ok false, c)) ∨
    c.mayMove item origin target unrestricted = .ok true ∧
      ∃ c₁ c', (remove origin item c.settings.movePolicy).on c = (.ok true, c₁) ∧
        c₁.checkAdd target item .standard = .ok () ∧
        (move item origin target acting unrestricted now).on c = (.ok true, c') ∧
        c.Relocated item origin target acting now c' := by
  obtain ⟨ho, hlt⟩ := orderly_with_room hl hn
  rw [hc] at ho hlt
  rcases hmay : c.mayMove item origin target unrestricted with x | _ | _
  · exact .inl ⟨x, rfl, by rw [on_move, hmay]⟩
  · exact .inr (.inl ⟨rfl, by rw [on_move, hmay]⟩)
  · exact .inr (.inr ⟨rfl, ho.on_move hlt acting now hmay⟩)

/-- A folder holds a folder, and each of them the same document. -/
def doubled : List Request :=
  [.insert (.bare 1 (.container .folder) [annRead]), .insert (.bare 2 (.container .folder) []),
    .insert (.bare 3 .document []), .add (.ofNat 1) (.ofNat 2) (.bare .inherit),
    .add (.ofNat 1) (.ofNat 3) (.bare .inherit),
    .add (.ofNat 2) (.ofNat 3) (.bare .inherit)].map operation

/-- The inner folder cannot move into itself, and the document cannot move to where it comes from.
It moves out of the outer folder into the inner one although it is in there already, and its edge
there is the one that it had. -/
theorem moves_all_or_nothing_doubled : ∃ c c', afterAll doubled (.empty .standard 0) = c ∧
    (move (.ofNat 2) (.ofNat 1) (.ofNat 2) .anonymous false .start).on c =
      (.error (.selfParent (.ofNat 2)), c) ∧
    (move (.ofNat 3) (.ofNat 1) (.ofNat 1) .anonymous false .start).on c = (.ok false, c) ∧
    (move (.ofNat 3) (.ofNat 1) (.ofNat 2) .anonymous false .start).on c = (.ok true, c') ∧
    c'.Apart (.ofNat 3) (.ofNat 1) ∧ c'.edge? ⟨3⟩ = c.edge? ⟨3⟩ := by
  have hl : AllAllowed Fresh doubled (.empty .standard 0) :=
    ⟨rfl, rfl, rfl, trivial, trivial, trivial, trivial⟩
  have hn : linksAll doubled (.empty .standard 0) ≤ 6 := linksAll_le_length ..
  have hmoves := fun item target =>
    moves_all_or_nothing hl (by omega) rfl item (.ofNat 1) target .anonymous false .start
  have hself : (afterAll doubled (.empty .standard 0)).mayMove (.ofNat 2) (.ofNat 1) (.ofNat 2)
      false = .error (.selfParent (.ofNat 2)) := by cbv
  have hsame : (afterAll doubled (.empty .standard 0)).mayMove (.ofNat 3) (.ofNat 1) (.ofNat 1)
      false = .ok false := by cbv
  have hmay : (afterAll doubled (.empty .standard 0)).mayMove (.ofNat 3) (.ofNat 1) (.ofNat 2)
      false = .ok true := by cbv
  have hedge : (afterAll doubled (.empty .standard 0)).edge? ⟨3⟩ =
      some (.make ⟨3⟩ ⟨.ofNat 3, .ofNat 2⟩ .anonymous .start) := by cbv
  have hself' := hmoves (.ofNat 2) (.ofNat 2)
  have hsame' := hmoves (.ofNat 3) (.ofNat 1)
  have hmoved := hmoves (.ofNat 3) (.ofNat 2)
  rw [hself] at hself'
  rw [hsame] at hsame'
  rw [hmay] at hmoved
  simp only [reduceCtorEq, false_and, exists_false, false_or, or_false, Except.error.injEq,
    exists_eq_left', true_and, Except.ok.injEq, Bool.false_eq_true] at hself' hsame' hmoved
  obtain ⟨_, c', _, _, hon, hrel⟩ := hmoved
  refine ⟨_, c', rfl, hself', hsame', hon, hrel.apart, ?_⟩
  rw [hedge]
  exact (hrel.edge _ _).mpr (.inl ⟨hedge, by decide⟩)

end Run

end Request

end Filing
