import Filing.Proofs.Ascent.Sight
import Filing.Proofs.Run

/-!
# What the generation tells

Of two states of one cabinet the later one has a generation that is greater by the number of changes
of structure in between (`Advances`).  Where this number is zero, a search upwards sees the same in
both.  The generation has 64 bits, so it tells states apart only as long as there are fewer than
`2 ^ 64` such changes between them.

* `Operation.follows_after`: **every operation counts its changes of structure**, on every cabinet,
  in order or not, and also where it fails half-way.  In particular, what counts nothing changes
  nothing that a search upwards can see.
-/

namespace Filing

open Cabinet

namespace Cabinet

variable {c c' c'' : Cabinet} {m n : Nat}

/-- The cabinet goes from one state to another by `n` changes of structure, each of which raises the
generation by one, and by others that a search upwards does not see. -/
inductive Advances : Nat → Cabinet → Cabinet → Prop
  | quiet {c c' : Cabinet} : c.SameAbove c' → c'.epoch = c.epoch → c'.generation = c.generation →
      Advances 0 c c'
  | counted {c c' : Cabinet} : c'.epoch = c.epoch → c'.generation = c.generation + 1 →
      Advances 1 c c'
  | trans {m n : Nat} {c c' c'' : Cabinet} : Advances m c c' → Advances n c' c'' →
      Advances (m + n) c c''

namespace Advances

theorem refl (c : Cabinet) : Advances 0 c c := .quiet (.refl c) rfl rfl

theorem epoch (h : Advances n c c') : c'.epoch = c.epoch := by
  induction h with
  | quiet _ he _ => exact he
  | counted he _ => exact he
  | trans _ _ ih ih' => exact ih'.trans ih

theorem generation (h : Advances n c c') : c'.generation = c.generation + .ofNat n := by
  induction h with
  | quiet _ _ hg => exact hg.trans (UInt64.add_zero _).symm
  | counted _ hg => exact hg
  | trans _ _ ih ih' => rw [ih', ih, UInt64.ofNat_add, UInt64.add_assoc]

theorem sameAbove (h : Advances 0 c c') : c.SameAbove c' := by
  generalize hn : 0 = n at h
  induction h with
  | quiet hs _ _ => exact hs
  | counted => cases hn
  | trans _ _ ih ih' => exact (ih (by omega)).trans (ih' (by omega))

theorem regranted (h : c.Regranted c') : Advances 0 c c' :=
  .quiet (.regranted h) (congrArg Cabinet.epoch h.eq :) h.generation

end Advances

theorem generation_of_unlink? {key : Membership} (h : c.unlink? key = some c') :
    c'.generation = c.generation + 1 := by
  rw [Cabinet.unlink?] at h
  obtain ⟨e, _, h⟩ := Option.bind_eq_some_iff.mp h
  obtain ⟨i, _, h⟩ := Option.bind_eq_some_iff.mp h
  split at h
  · obtain ⟨listed, hl, h⟩ := Option.bind_eq_some_iff.mp h
    have hg : listed.generation = c.generation :=
      (congrArg Cabinet.generation (unlist?_eq_some hl).1 :)
    cases h
    show listed.generation + 1 = c.generation + 1
    rw [hg]
  · cases h

/-- The cabinet goes from one state to another as counted by its generation. -/
def Follows (c c' : Cabinet) : Prop := ∃ n, Advances n c c'

namespace Follows

theorem refl (c : Cabinet) : c.Follows c := ⟨0, .refl c⟩

theorem trans : c.Follows c' → c'.Follows c'' → c.Follows c''
  | ⟨m, h⟩, ⟨n, h'⟩ => ⟨m + n, h.trans h'⟩

theorem regranted (h : c.Regranted c') : c.Follows c' := ⟨0, .regranted h⟩

theorem counted (he : c'.epoch = c.epoch) (hg : c'.generation = c.generation + 1) :
    c.Follows c' := ⟨1, .counted he hg⟩

theorem modifyItem (c : Cabinet) (id : ItemId) {f : Item → Item}
    (hf : ∀ i, (f i).upward = i.upward) : c.Follows (c.modifyItem id f) :=
  ⟨0, .quiet (.modifyItem c id hf) rfl rfl⟩

theorem withEdge (c : Cabinet) (key : Membership) (owner : Principal) (defer : Bool)
    (now : Timestamp) : c.Follows (c.withEdge key owner defer now) := by
  cases defer <;> exact counted rfl rfl

theorem unlink? {key : Membership} (h : c.unlink? key = some c') : c.Follows c' := by
  obtain ⟨e, hu⟩ := unlinked_of_unlink? h
  exact counted hu.epoch (generation_of_unlink? h)

theorem markEdge (c : Cabinet) (e : EdgeId) (deleted : Bool) (now : Timestamp) :
    c.Follows (c.markEdge e deleted now) := by
  refine ⟨0, .quiet ⟨fun _ => rfl, fun e' => ?_⟩ rfl rfl⟩
  rw [edge?_markEdge]
  split
  · cases c.edge? e' <;> rfl
  · rfl

theorem flushDeferred (c : Cabinet) : c.Follows c.flushDeferred.1 := by
  refine ⟨0, .quiet ⟨fun id => ?_, fun e => ?_⟩ ?_ ?_⟩
  · rw [item?_flushDeferred]
    cases c.item? id <;> rfl
  · rw [edge?_flushDeferred]
  · rw [flushDeferred_eq]
  · rw [flushDeferred_eq]

theorem share (c : Cabinet) (id : ItemId) (kind : ContainerKind) : c.Follows (c.share id kind) := by
  rw [Cabinet.share]
  split
  · exact refl c
  · exact counted rfl rfl

theorem steady : Steady Follows where
  refl := refl
  trans := trans
  share := share
  onAdd p parent child c := regranted (p.regranted_onAdd parent child c)
  withEdge := withEdge
  unlink? := unlink?
  onRemove p parent child c := regranted (p.regranted_onRemove parent child c)

end Follows

end Cabinet

variable {c c' : Cabinet}

/-! ## Operations -/

/-- **Every operation counts its changes of structure.** -/
theorem Operation.follows_after (op : Operation) (c : Cabinet) : c.Follows (op.after c) := by
  cases op with
  | insert item => exact .counted rfl rfl
  | add parent child a =>
    rw [after_add]
    exact Follows.steady.add parent child a c
  | remove parent child p =>
    rw [after_remove]
    exact Follows.steady.remove parent child p c
  | move item origin target acting unrestricted now =>
    rw [after_move]
    exact Follows.steady.move item origin target acting unrestricted now c
  | mark key deleted now =>
    rcases after_mark c key deleted now with h | ⟨e, h⟩ <;> rw [h]
    · exact .refl c
    · exact .markEdge c e deleted now
  | setDeleted id deleted =>
    rcases after_setDeleted c id deleted with h | h <;> rw [h]
    · exact .refl c
    · exact .modifyItem c id fun _ => rfl
  | setAccess id access =>
    rcases after_setAccess c id access with h | h <;> rw [h]
    · exact .refl c
    · exact .regranted (.setAccess c id access)
  | destroy id =>
    rw [after_destroy]
    rcases Follows.steady.destroy id c with h | ⟨c', h, hd⟩
    · exact h
    · rw [hd]
      exact h.trans (.counted rfl rfl)
  | flush => exact .flushDeferred c

end Filing
