import Filing.Proofs.Marks
import Filing.Proofs.Relocation

/-!
# Whether a moved item can be seen

A visible item bears no mark of its own, and a move changes nothing about that.  A membership that
the move begins bears no mark either.  But the item may have been in the target before: then the
move leaves the membership that it has there as it is, with its mark, and an item that could be seen
where it came from is hidden where it has gone.

* `Relocated.isDeletedIn`: the new place is marked after a move exactly if it was marked before.
* `Request.moved_visible_iff`: **a visible item can be seen where it was moved exactly if it was not
  marked as deleted there.**
-/

namespace Filing

open Cabinet

namespace Cabinet

variable {c c' : Cabinet} {item origin target : ItemId} {acting : Principal} {now : Timestamp}

/-- **A move leaves the mark of the item in the target as it is.**  Where there was no membership,
there was no mark, and there is none afterwards. -/
theorem Relocated.isDeletedIn (h : c.Relocated item origin target acting now c') (hs : c.Sound) :
    c'.isDeletedIn ⟨item, target⟩ = c.isDeletedIn ⟨item, target⟩ := by
  obtain ⟨edge, _, rfl, rfl, he⟩ := h.joined.stored
  rw [h.sound.isDeletedIn_eq he]
  rcases (h.edge _ _).mp he with ⟨hbefore, _⟩ | ⟨hout, _, hnew⟩
  · rw [hs.isDeletedIn_eq hbefore]
  · rw [Cabinet.isDeletedIn, (hs.apart_of_not_holds hout).stored, hnew]
    rfl

end Cabinet

/-! ## Runs -/

namespace Request

section Run

variable {settings : Settings} {epoch : Epoch} {l : List Request} {c c' : Cabinet}
  {item origin target : ItemId} {acting : Principal} {unrestricted : Bool} {now : Timestamp}

/-- **A visible item can be seen where it was moved exactly if it was not marked as deleted there**,
in every cabinet that a run from an empty one comes to: so it can be if it was not there yet. -/
theorem moved_visible_iff (hl : AllAllowed Fresh l (.empty settings epoch))
    (hn : linksAll l (.empty settings epoch) < 2 ^ 64 - 2)
    (hc : afterAll l (.empty settings epoch) = c) (hv : item ∈ c.visibleChildren origin)
    (hm : (move item origin target acting unrestricted now).on c = (.ok true, c')) :
    item ∈ c'.visibleChildren target ↔ c.isDeletedIn ⟨item, target⟩ = false := by
  obtain ⟨ho, _⟩ := orderly_with_room hl hn
  rw [hc] at ho
  have hrel : c.Relocated item origin target acting now c' := by
    rcases moves_all_or_nothing hl hn hc item origin target acting unrestricted now with
      ⟨x, _, hon⟩ | ⟨_, hon⟩ | ⟨_, _, c₂, _, _, hon, hrel⟩ <;> rw [hm] at hon
    · cases hon
    · cases hon
    · cases hon
      exact hrel
  obtain ⟨_, _, i, hi, hdel⟩ := ho.mem_visibleChildren_iff.mp hv
  -- the item is no more marked than it was
  have hown := SameMarks.steady.move item origin target acting unrestricted now c item
  rw [hm, hi] at hown
  obtain ⟨i', hi', hsame⟩ := Option.map_eq_some_iff.mp hown
  have hin : item ∈ c'.children target := by
    rw [← List.count_pos_iff, hrel.joined.below]
    exact Nat.one_pos
  rw [hrel.sound.mem_visibleChildren_iff, hrel.isDeletedIn ho.toSound, and_iff_right hin]
  exact and_iff_left ⟨i', hi', hsame.trans hdel⟩

/-- A document is in two folders, and marked as deleted in the second one. -/
def hiddenOnce : List Request :=
  [.insert (.bare 1 (.container .folder) []), .insert (.bare 2 (.container .folder) []),
    .insert (.bare 3 .document []), .insert (.bare 4 (.container .folder) []),
    .add (.ofNat 1) (.ofNat 3) (.bare .null), .add (.ofNat 2) (.ofNat 3) (.bare .null),
    .mark ⟨.ofNat 3, .ofNat 2⟩ true .start].map operation

theorem allAllowed_hiddenOnce : AllAllowed Fresh hiddenOnce (.empty .standard 0) :=
  ⟨rfl, rfl, rfl, rfl, trivial, trivial, trivial, trivial⟩

theorem visible_hiddenOnce : .ofNat 3 ∈
    (afterAll hiddenOnce (.empty .standard 0)).visibleChildren (.ofNat 1) := by
  have hv : (afterAll hiddenOnce (.empty .standard 0)).visibleChildren (.ofNat 1) =
      [.ofNat 3] := by cbv
  exact hv ▸ List.mem_cons_self

/-- It can be seen when it was moved out of the first folder into a third one. -/
theorem moved_visible_iff_hiddenOnce : ∃ c c', afterAll hiddenOnce (.empty .standard 0) = c ∧
    .ofNat 3 ∈ c.visibleChildren (.ofNat 1) ∧
    (move (.ofNat 3) (.ofNat 1) (.ofNat 4) .anonymous false .start).on c = (.ok true, c') ∧
    .ofNat 3 ∈ c'.visibleChildren (.ofNat 4) := by
  have hn : linksAll hiddenOnce (.empty .standard 0) ≤ 7 := linksAll_le_length ..
  have hm : ((move (.ofNat 3) (.ofNat 1) (.ofNat 4) .anonymous false .start).on
      (afterAll hiddenOnce (.empty .standard 0))).1 = .ok true := by cbv
  refine ⟨_, _, rfl, visible_hiddenOnce, Prod.ext hm rfl, ?_⟩
  refine (moved_visible_iff allAllowed_hiddenOnce (by omega) rfl visible_hiddenOnce
    (Prod.ext hm rfl)).mpr ?_
  cbv

/-- **A move can hide a visible item**: when the document is moved into the second folder. -/
theorem not_forall_moved_visible :
    ¬∀ (settings : Settings) (epoch : Epoch) (l : List Request) (c c' : Cabinet)
      (item origin target : ItemId) (acting : Principal) (now : Timestamp),
      AllAllowed Fresh l (.empty settings epoch) →
      linksAll l (.empty settings epoch) < 2 ^ 64 - 2 →
      afterAll l (.empty settings epoch) = c → item ∈ c.visibleChildren origin →
      (move item origin target acting false now).on c = (.ok true, c') →
      item ∈ c'.visibleChildren target := by
  intro h
  have hn : linksAll hiddenOnce (.empty .standard 0) ≤ 7 := linksAll_le_length ..
  have hm : ((move (.ofNat 3) (.ofNat 1) (.ofNat 2) .anonymous false .start).on
      (afterAll hiddenOnce (.empty .standard 0))).1 = .ok true := by cbv
  have hhidden : ((move (.ofNat 3) (.ofNat 1) (.ofNat 2) .anonymous false .start).on
      (afterAll hiddenOnce (.empty .standard 0))).2.visibleChildren (.ofNat 2) = [] := by cbv
  have hseen := h .standard 0 hiddenOnce _ _ (.ofNat 3) (.ofNat 1) (.ofNat 2) .anonymous .start
    allAllowed_hiddenOnce (by omega) rfl visible_hiddenOnce (Prod.ext hm rfl)
  rw [hhidden] at hseen
  cases hseen

end Run

end Request

end Filing
