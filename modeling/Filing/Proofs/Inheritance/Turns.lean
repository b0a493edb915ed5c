import Filing.Inheritance.Order
import Mathlib.Data.List.Perm.Subperm

/-!
# Everyone in turn

What lies below an item is found breadth first.  The search goes nowhere that it could not go, it
forgets nothing and repeats nothing (`discover_closed`, `discover_subperm`).

Then the items are placed.  Whoever is placed tells its members, and an item gets ready when it was
told of as many containers as it lists (`told`, and `need` for the number that it lists).  Nothing
is assumed of the two sides here, so an item may be told of more containers than it lists.

* `Waits.due_of_place`, `Waits.lt_of_left`: **whoever is placed was told of enough, and whoever is
  left over was not.**
* `Unrepeated.two_le_count_iff`: who is told of more than it lists while it is ready is ready once
  more.
* `Unrepeated.nodup_place_iff`: so **the placing repeats nothing exactly if nobody is told of more
  than it lists before its turn.**
-/

namespace Filing

open Relation

variable {next : ItemId → List ItemId}

/-! ## Finding -/

theorem meet_spec (l unmet queue : List ItemId) :
    ∃ new, (meet l unmet queue).2 = queue ++ new ∧ (new ++ (meet l unmet queue).1).Perm unmet ∧
      ∀ y ∈ l, y ∈ unmet → y ∈ new := by
  induction l generalizing unmet queue with
  | nil => exact ⟨[], by simp [meet], by simp [meet], nofun⟩
  | cons id rest ih =>
    unfold meet
    split
    · next hid =>
      obtain ⟨new, hq, hp, hnew⟩ := ih (unmet.erase id) (queue ++ [id])
      refine ⟨id :: new, by rw [hq]; simp, ?_, fun y hy hu => ?_⟩
      · exact (hp.cons id).trans (List.perm_cons_erase hid).symm
      · by_cases hyid : y = id
        · exact hyid ▸ List.mem_cons_self
        · refine List.mem_cons_of_mem _ (hnew y ?_ ((List.mem_erase_of_ne hyid).mpr hu))
          exact (List.mem_cons.mp hy).resolve_left hyid
    · next hid =>
      obtain ⟨new, hq, hp, hnew⟩ := ih unmet queue
      refine ⟨new, hq, hp, fun y hy hu => ?_⟩
      rcases List.mem_cons.mp hy with rfl | hy
      · exact absurd hu hid
      · exact hnew y hy hu

theorem mem_meet {l unmet queue : List ItemId} {x : ItemId} (h : x ∈ (meet l unmet queue).2) :
    x ∈ l ∨ x ∈ queue := by
  induction l generalizing unmet queue with
  | nil => exact .inr h
  | cons id rest ih =>
    rw [meet] at h
    split at h
    · rcases ih h with h | h
      · exact .inl (List.mem_cons_of_mem _ h)
      · rcases List.mem_append.mp h with h | h
        · exact .inr h
        · exact .inl (List.mem_singleton.mp h ▸ List.mem_cons_self)
    · exact (ih h).imp_left (List.mem_cons_of_mem _)

theorem discover_subperm (queue unmet : List ItemId) :
    (discover next queue unmet).Subperm (queue ++ unmet) := by
  induction queue, unmet using discover.induct next with
  | case1 unmet =>
    unfold discover
    exact List.nil_subperm
  | case2 unmet id queue met ih =>
    rw [discover, List.cons_append]
    obtain ⟨new, hq, hp, _⟩ := meet_spec (next id) unmet queue
    refine (List.subperm_cons id).mpr (ih.trans (List.Perm.subperm ?_))
    show ((meet (next id) unmet queue).2 ++ (meet (next id) unmet queue).1).Perm _
    rw [hq, List.append_assoc]
    exact hp.append_left queue

theorem mem_discover_of_queue {queue unmet : List ItemId} {x : ItemId} (hx : x ∈ queue) :
    x ∈ discover next queue unmet := by
  induction queue, unmet using discover.induct next with
  | case1 unmet => cases hx
  | case2 unmet id queue met ih =>
    unfold discover
    rcases List.mem_cons.mp hx with rfl | hx
    · exact List.mem_cons_self
    · refine List.mem_cons_of_mem _ (ih ?_)
      obtain ⟨new, hq, _⟩ := meet_spec (next id) unmet queue
      show x ∈ (meet (next id) unmet queue).2
      rw [hq]
      exact List.mem_append_left _ hx

/-- **Nothing that can be met is forgotten.** -/
theorem discover_closed {queue unmet : List ItemId} {x y : ItemId}
    (hx : x ∈ discover next queue unmet) (hy : y ∈ next x) (hu : y ∈ unmet) :
    y ∈ discover next queue unmet := by
  induction queue, unmet using discover.induct next with
  | case1 unmet =>
    rw [discover] at hx
    cases hx
  | case2 unmet id queue met ih =>
    obtain ⟨new, hq, hp, hnew⟩ := meet_spec (next id) unmet queue
    have hqueue : ∀ z ∈ new, z ∈ discover next met.2 met.1 := fun z hz => by
      apply mem_discover_of_queue
      show z ∈ (meet (next id) unmet queue).2
      rw [hq]
      exact List.mem_append_right _ hz
    rw [discover] at hx ⊢
    apply List.mem_cons_of_mem _
    -- what was unmet is met by this step, or it is still unmet
    rcases List.mem_append.mp (hp.mem_iff.mpr hu) with hu | hu
    · exact hqueue y hu
    · rcases List.mem_cons.mp hx with rfl | hx
      · exact hqueue y (hnew y hy (hp.mem_iff.mp (List.mem_append_right _ hu)))
      · exact ih hx hu

/-- **Whatever is found can be reached** from the queue. -/
theorem reached_of_mem_discover {queue unmet : List ItemId} {x : ItemId}
    (h : x ∈ discover next queue unmet) :
    ∃ y ∈ queue, ReflTransGen (fun a b => b ∈ next a) y x := by
  induction queue, unmet using discover.induct next with
  | case1 unmet =>
    rw [discover] at h
    cases h
  | case2 unmet id queue met ih =>
    rw [discover] at h
    rcases List.mem_cons.mp h with rfl | h
    · exact ⟨x, List.mem_cons_self, .refl⟩
    · obtain ⟨y, hy, hyx⟩ := ih h
      rcases mem_meet hy with hy | hy
      · exact ⟨id, List.mem_cons_self, .head hy hyx⟩
      · exact ⟨y, List.mem_cons_of_mem _ hy, hyx⟩

/-! ## Being told -/

/-- How often the items of a list list `y` as a member, and so tell it that they were placed. -/
def told (next : ItemId → List ItemId) (l : List ItemId) (y : ItemId) : Nat :=
  (l.flatMap next).count y

theorem told_nil (next : ItemId → List ItemId) (y : ItemId) : told next [] y = 0 := rfl

theorem told_cons (next : ItemId → List ItemId) (x : ItemId) (l : List ItemId) (y : ItemId) :
    told next (x :: l) y = (next x).count y + told next l y := by
  rw [told, List.flatMap_cons, List.count_append, told]

theorem told_append (next : ItemId → List ItemId) (l l' : List ItemId) (y : ItemId) :
    told next (l ++ l') y = told next l y + told next l' y := by
  rw [told, List.flatMap_append, List.count_append, told, told]

theorem told_snoc (next : ItemId → List ItemId) (l : List ItemId) (x y : ItemId) :
    told next (l ++ [x]) y = told next l y + (next x).count y := by
  rw [told_append, told_cons, told_nil, Nat.add_zero]

theorem countP_mem_cons {x : ItemId} {l : List ItemId} (hx : x ∉ l) (prev : List ItemId) :
    prev.countP (· ∈ x :: l) = prev.count x + prev.countP (· ∈ l) := by
  induction prev with
  | nil => rfl
  | cons a prev ih =>
    rw [List.countP_cons, List.countP_cons, List.count_cons, ih]
    by_cases ha : a = x
    · simp [ha, hx]
      omega
    · simp [ha]
      omega

/-- Where no item of a list lists `y` more often than `y` lists it, they tell `y` no more often than
it lists them. -/
theorem told_le_countP {l prev : List ItemId} {y : ItemId} (hn : l.Nodup)
    (h : ∀ x ∈ l, (next x).count y ≤ prev.count x) : told next l y ≤ prev.countP (· ∈ l) := by
  induction l with
  | nil => exact Nat.zero_le _
  | cons x l ih =>
    obtain ⟨hx, hl⟩ := List.nodup_cons.mp hn
    rw [told_cons, countP_mem_cons hx]
    exact Nat.add_le_add (h x List.mem_cons_self)
      (ih hl fun z hz => h z (List.mem_cons_of_mem _ hz))

theorem told_eq_countP {l prev : List ItemId} {y : ItemId} (hn : l.Nodup)
    (h : ∀ x ∈ l, (next x).count y = prev.count x) : told next l y = prev.countP (· ∈ l) := by
  induction l with
  | nil => simp [told_nil]
  | cons x l ih =>
    obtain ⟨hx, hl⟩ := List.nodup_cons.mp hn
    rw [told_cons, countP_mem_cons hx, h x List.mem_cons_self,
      ih hl fun z hz => h z (List.mem_cons_of_mem _ hz)]

section Release

variable (unplaced : List ItemId)

theorem find?_release (l : List ItemId) (waiting : Waiting) (ready : List ItemId) (y : ItemId) :
    (release unplaced l waiting ready).1.find? y = (waiting.find? y).map (· - l.count y) := by
  induction l generalizing waiting ready with
  | nil => simp [release]
  | cons id rest ih =>
    unfold release
    cases hid : waiting.find? id with
    | none =>
      dsimp only
      rw [ih]
      by_cases hy : y = id
      · simp [hy, hid]
      · rw [List.count_cons_of_ne (Ne.symm hy)]
    | some n =>
      have hstep : ((waiting.insert id (n - 1)).find? y).map (· - rest.count y) =
          (waiting.find? y).map (· - (id :: rest).count y) := by
        rw [SortedMap.find?_insert]
        by_cases hy : y = id
        · subst hy
          rw [if_pos rfl, hid, List.count_cons_self]
          simp only [Option.map_some, Option.some.injEq]
          omega
        · rw [if_neg hy, List.count_cons_of_ne (Ne.symm hy)]
      dsimp only
      split <;> rw [ih, hstep]

variable {unplaced}

/-- **How often an item is ready** after it was told: each time that nothing is left to wait for. -/
theorem count_release {l : List ItemId} {waiting : Waiting} {ready : List ItemId} {y : ItemId}
    {n : Nat} (hy : y ∈ unplaced) (hn : waiting.find? y = some n) :
    (release unplaced l waiting ready).2.count y = ready.count y + (l.count y + 1 - max n 1) := by
  induction l generalizing waiting ready n with
  | nil =>
    show ready.count y = _
    rw [List.count_nil]
    omega
  | cons id rest ih =>
    unfold release
    by_cases hid : id = y
    · subst hid
      have hfind : (waiting.insert id (n - 1)).find? id = some (n - 1) := by
        rw [SortedMap.find?_insert, if_pos rfl]
      rw [hn]
      dsimp only
      rw [List.count_cons_self]
      split
      · next h =>
        rw [ih hfind, List.count_append, List.count_singleton_self]
        omega
      · next h =>
        have hn1 : n - 1 ≠ 0 := fun h0 => h ⟨h0, hy⟩
        rw [ih hfind]
        omega
    · rw [List.count_cons_of_ne hid]
      cases hw : waiting.find? id with
      | none => exact ih hn
      | some m =>
        have hfind : (waiting.insert id (m - 1)).find? y = some n := by
          rw [SortedMap.find?_insert, if_neg (Ne.symm hid), hn]
        dsimp only
        split
        · rw [ih hfind, List.count_append, List.count_singleton, if_neg (by simpa using hid),
            Nat.add_zero]
        · exact ih hfind

theorem count_release_of_not_mem {l : List ItemId} {waiting : Waiting} {ready : List ItemId}
    {y : ItemId} (hy : y ∉ unplaced) :
    (release unplaced l waiting ready).2.count y = ready.count y := by
  induction l generalizing waiting ready with
  | nil => rfl
  | cons id rest ih =>
    unfold release
    split
    · exact ih
    · dsimp only
      split
      · next h =>
        have hid : id ≠ y := fun heq => hy (heq ▸ h.2)
        rw [ih, List.count_append, List.count_singleton, if_neg (by simpa using hid), Nat.add_zero]
      · exact ih

end Release

/-! ## Placing -/

/-- The state of the placing: an item that is not placed waits for what it was not told of yet, and
whoever waits for nothing is ready.  `need` is the number of containers that an item lists. -/
structure Waits (next : ItemId → List ItemId) (need : ItemId → Nat)
    (placed ready unplaced : List ItemId) (waiting : Waiting) : Prop where
  unplaced_nodup : unplaced.Nodup
  waiting_eq : ∀ y ∈ unplaced, waiting.find? y = some (need y - told next placed y)
  due : ∀ y ∈ ready, need y ≤ told next placed y
  mem_ready : ∀ y ∈ unplaced, need y ≤ told next placed y → y ∈ ready

namespace Waits

variable {need : ItemId → Nat} {placed ready unplaced : List ItemId} {waiting : Waiting}
  {x y : ItemId}

theorem count_step (h : Waits next need placed (x :: ready) unplaced waiting)
    (hy : y ∈ unplaced.erase x) :
    (release (unplaced.erase x) (next x) waiting ready).2.count y =
      ready.count y + ((next x).count y + 1 - max (need y - told next placed y) 1) :=
  count_release hy (h.waiting_eq y (List.mem_of_mem_erase hy))

theorem step (h : Waits next need placed (x :: ready) unplaced waiting) :
    Waits next need (placed ++ [x]) (release (unplaced.erase x) (next x) waiting ready).2
      (unplaced.erase x) (release (unplaced.erase x) (next x) waiting ready).1 := by
  refine ⟨h.unplaced_nodup.erase x, fun y hy => ?_, fun y hy => ?_, fun y hy hle => ?_⟩
  · rw [find?_release, h.waiting_eq y (List.mem_of_mem_erase hy), told_snoc, Option.map_some,
      Nat.sub_sub]
  · rw [told_snoc]
    by_cases hu : y ∈ unplaced.erase x
    · by_cases hr : y ∈ ready
      · exact Nat.le_add_right_of_le (h.due y (List.mem_cons_of_mem _ hr))
      · have hpos := List.count_pos_iff.mpr hy
        rw [h.count_step hu, List.count_eq_zero.mpr hr] at hpos
        omega
    · rw [← List.count_pos_iff, count_release_of_not_mem hu, List.count_pos_iff] at hy
      exact Nat.le_add_right_of_le (h.due y (List.mem_cons_of_mem _ hy))
  · rw [told_snoc] at hle
    rw [← List.count_pos_iff, h.count_step hy]
    by_cases hdue : need y ≤ told next placed y
    · have hmem := h.mem_ready y (List.mem_of_mem_erase hy) hdue
      have hne : y ≠ x := fun heq => h.unplaced_nodup.not_mem_erase (heq ▸ hy)
      have hpos := List.count_pos_iff.mpr ((List.mem_cons.mp hmem).resolve_left hne)
      omega
    · omega

/-- **Whoever is placed was told of enough.** -/
theorem due_of_place {l l' : List ItemId} (h : Waits next need placed ready unplaced waiting)
    (hl : (place next ready unplaced waiting).1 = l ++ y :: l') :
    need y ≤ told next (placed ++ l) y := by
  fun_induction place next ready unplaced waiting generalizing placed l
  case case1 unplaced waiting => exact absurd hl.symm (by simp)
  case case2 unplaced waiting x ready rest released ordered left heq ih =>
    rw [heq] at ih
    cases l with
    | nil =>
      cases (List.cons.inj hl).1
      rw [List.append_nil]
      exact h.due _ List.mem_cons_self
    | cons z l =>
      obtain ⟨hz, hrest⟩ := List.cons.inj hl
      rw [List.append_cons, ← hz]
      exact ih h.step hrest

/-- **Whoever is left was not told of enough.** -/
theorem lt_of_left (h : Waits next need placed ready unplaced waiting)
    (hy : y ∈ (place next ready unplaced waiting).2) :
    told next (placed ++ (place next ready unplaced waiting).1) y < need y := by
  fun_induction place next ready unplaced waiting generalizing placed
  case case1 unplaced waiting =>
    rw [List.append_nil]
    exact Nat.lt_of_not_le fun hle => List.not_mem_nil (h.mem_ready y hy hle)
  case case2 unplaced waiting x ready rest released ordered left heq ih =>
    rw [heq] at ih
    rw [List.append_cons]
    exact ih h.step hy

end Waits

theorem place_snd (ready unplaced : List ItemId) (waiting : Waiting) :
    (place next ready unplaced waiting).2 =
      unplaced.diff (place next ready unplaced waiting).1 := by
  fun_induction place next ready unplaced waiting
  case case1 unplaced waiting => rw [List.diff_nil]
  case case2 unplaced waiting x ready rest released ordered left heq ih =>
    rw [heq] at ih
    rw [List.diff_cons]
    exact ih

theorem ready_prefix_release (unplaced l : List ItemId) (waiting : Waiting) (ready : List ItemId) :
    ready <+: (release unplaced l waiting ready).2 := by
  induction l generalizing waiting ready with
  | nil => exact List.prefix_rfl
  | cons id rest ih =>
    unfold release
    split
    · exact ih _ _
    · dsimp only
      split
      · exact (List.prefix_append ready [id]).trans (ih _ _)
      · exact ih _ _

theorem ready_prefix_place (ready unplaced : List ItemId) (waiting : Waiting) :
    ready <+: (place next ready unplaced waiting).1 := by
  fun_induction place next ready unplaced waiting
  case case1 unplaced waiting => exact List.prefix_rfl
  case case2 unplaced waiting x ready rest released ordered left heq ih =>
    rw [heq] at ih
    exact List.cons_prefix_cons.mpr ⟨rfl, (ready_prefix_release ..).trans ih⟩

theorem exists_first_repeated {l : List ItemId} (h : ¬l.Nodup) :
    ∃ l₁ y l₂, l = l₁ ++ y :: l₂ ∧ l₁.Nodup ∧ y ∈ l₂ := by
  induction l with
  | nil => exact absurd List.nodup_nil h
  | cons a l ih =>
    by_cases ha : a ∈ l
    · exact ⟨[], a, l, rfl, List.nodup_nil, ha⟩
    · obtain ⟨l₁, y, l₂, rfl, hn, hy⟩ := ih fun hn => h (List.nodup_cons.mpr ⟨ha, hn⟩)
      refine ⟨a :: l₁, y, l₂, rfl, List.nodup_cons.mpr ⟨fun hm => ha ?_, hn⟩, hy⟩
      exact List.mem_append_left _ hm

theorem mem_of_mem_place {ready unplaced : List ItemId} {waiting : Waiting} {y : ItemId}
    (hy : y ∈ (place next ready unplaced waiting).1) : y ∈ ready ∨ y ∈ unplaced := by
  fun_induction place next ready unplaced waiting
  case case1 unplaced waiting => cases hy
  case case2 unplaced waiting x ready rest released ordered left heq ih =>
    rw [heq] at ih
    rcases List.mem_cons.mp hy with rfl | hy
    · exact .inl List.mem_cons_self
    · rcases ih hy with hy | hy
      · by_cases hu : y ∈ rest
        · exact .inr (List.mem_of_mem_erase hu)
        · rw [← List.count_pos_iff, count_release_of_not_mem hu, List.count_pos_iff] at hy
          exact .inl (List.mem_cons_of_mem _ hy)
      · exact .inr (List.mem_of_mem_erase hy)

/-- The state of the placing while nothing was placed twice: whoever is ready is ready once, and was
told of no more than it lists. -/
structure Unrepeated (next : ItemId → List ItemId) (need : ItemId → Nat)
    (placed ready unplaced : List ItemId) (waiting : Waiting) : Prop extends
    Waits next need placed ready unplaced waiting where
  ready_nodup : ready.Nodup
  mem_unplaced : ∀ y ∈ ready, y ∈ unplaced
  told_le : ∀ y ∈ unplaced, told next placed y ≤ need y

namespace Unrepeated

variable {need : ItemId → Nat} {placed ready unplaced : List ItemId} {waiting : Waiting}
  {x y : ItemId}

theorem mem_release (h : Unrepeated next need placed (x :: ready) unplaced waiting)
    (hy : y ∈ (release (unplaced.erase x) (next x) waiting ready).2) : y ∈ unplaced.erase x := by
  by_contra hu
  rw [← List.count_pos_iff, count_release_of_not_mem hu, List.count_pos_iff] at hy
  have hne : y ≠ x := fun heq => (List.nodup_cons.mp h.ready_nodup).1 (heq ▸ hy)
  exact hu ((List.mem_erase_of_ne hne).mpr (h.mem_unplaced y (List.mem_cons_of_mem _ hy)))

/-- **Who is told of more than it lists is ready twice**, and only then. -/
theorem two_le_count_iff (h : Unrepeated next need placed (x :: ready) unplaced waiting)
    (hy : y ∈ unplaced.erase x) :
    2 ≤ (release (unplaced.erase x) (next x) waiting ready).2.count y ↔
      need y < told next (placed ++ [x]) y := by
  have hu := List.mem_of_mem_erase hy
  have hle := h.told_le y hu
  have hready : ready.count y = if y ∈ ready then 1 else 0 :=
    (List.nodup_cons.mp h.ready_nodup).2.count
  have hdue : y ∈ ready ↔ need y ≤ told next placed y := by
    refine ⟨fun hm => h.due y (List.mem_cons_of_mem _ hm), fun hdue => ?_⟩
    refine (List.mem_cons.mp (h.mem_ready y hu hdue)).resolve_left fun heq => ?_
    exact h.unplaced_nodup.not_mem_erase (heq ▸ hy)
  rw [h.count_step hy, hready, told_snoc]
  by_cases hm : need y ≤ told next placed y
  · rw [if_pos (hdue.mpr hm)]
    omega
  · rw [if_neg fun hr => hm (hdue.mp hr)]
    omega

theorem step (h : Unrepeated next need placed (x :: ready) unplaced waiting)
    (hn : (release (unplaced.erase x) (next x) waiting ready).2.Nodup) :
    Unrepeated next need (placed ++ [x]) (release (unplaced.erase x) (next x) waiting ready).2
      (unplaced.erase x) (release (unplaced.erase x) (next x) waiting ready).1 where
  toWaits := h.toWaits.step
  ready_nodup := hn
  mem_unplaced _ hy := h.mem_release hy
  told_le y hy := by
    refine Nat.le_of_not_lt fun hlt => ?_
    have htwo := (h.two_le_count_iff hy).mpr hlt
    have hone := List.nodup_iff_count.mp hn y
    omega

theorem exists_told (h : Unrepeated next need placed (x :: ready) unplaced waiting)
    (hn : ¬(release (unplaced.erase x) (next x) waiting ready).2.Nodup) :
    ∃ l y r, (release (unplaced.erase x) (next x) waiting ready).2 = l ++ y :: r ∧ l.Nodup ∧
      need y < told next (placed ++ [x]) y := by
  obtain ⟨l, y, r, hl, hln, hyr⟩ := exists_first_repeated hn
  refine ⟨l, y, r, hl, hln, (h.two_le_count_iff (h.mem_release ?_)).mp ?_⟩
  · exact hl ▸ List.mem_append_right _ List.mem_cons_self
  · have := List.count_pos_iff.mpr hyr
    rw [hl, List.count_append, List.count_cons_self]
    omega

/-- **The placing repeats nothing exactly if nobody is told of more than it lists before its turn.**
It is enough to look as far as nothing was repeated yet. -/
theorem nodup_place_iff (h : Unrepeated next need placed ready unplaced waiting) :
    (place next ready unplaced waiting).1.Nodup ↔ ∀ l y l',
      (place next ready unplaced waiting).1 = l ++ y :: l' → l.Nodup →
        told next (placed ++ l) y ≤ need y := by
  fun_induction place next ready unplaced waiting generalizing placed
  case case1 unplaced waiting =>
    exact ⟨fun _ l y l' hl => absurd hl.symm (by simp), fun _ => List.nodup_nil⟩
  case case2 unplaced waiting x ready rest released ordered left heq ih =>
    rw [heq] at ih
    have hordered : (place next released.2 rest released.1).1 = ordered := by rw [heq]
    have hx : x ∉ released.2 := fun hm => h.unplaced_nodup.not_mem_erase (h.mem_release hm)
    show (x :: ordered).Nodup ↔ ∀ l y l', x :: ordered = l ++ y :: l' → _
    by_cases hn : released.2.Nodup
    · have hx' : x ∉ ordered := fun hm =>
        (mem_of_mem_place (hordered ▸ hm)).elim hx h.unplaced_nodup.not_mem_erase
      rw [List.nodup_cons, and_iff_right hx', ih (h.step hn)]
      constructor
      · intro hall l y l' hl hln
        cases l with
        | nil =>
          cases (List.cons.inj hl).1
          rw [List.append_nil]
          exact h.told_le x (h.mem_unplaced x List.mem_cons_self)
        | cons z l =>
          obtain ⟨hz, hrest⟩ := List.cons.inj hl
          rw [List.append_cons, ← hz]
          exact hall l y l' hrest (List.nodup_cons.mp hln).2
      · intro hall l y l' (hl : ordered = l ++ y :: l') hln
        rw [← List.append_cons]
        refine hall (x :: l) y l' (by rw [hl]; rfl) (List.nodup_cons.mpr ⟨fun hm => hx' ?_, hln⟩)
        exact hl ▸ List.mem_append_left _ hm
    · -- this very step makes somebody ready twice
      have hprefix : released.2 <+: ordered := hordered ▸ ready_prefix_place ..
      refine iff_of_false (fun hnodup => hn ?_) fun hall => ?_
      · exact hprefix.sublist.nodup (List.nodup_cons.mp hnodup).2
      · obtain ⟨l, y, r, hl : released.2 = _, hln, hlt⟩ := h.exists_told hn
        obtain ⟨r', hr'⟩ := hprefix
        have hle := hall (x :: l) y (r ++ r') (by rw [← hr', hl]; simp)
          (List.nodup_cons.mpr ⟨fun hm => hx (hl ▸ List.mem_append_left _ hm), hln⟩)
        rw [List.append_cons, told_append] at hle
        omega

end Unrepeated

end Filing
