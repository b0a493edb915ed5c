import Filing.Proofs.Disposal
import Filing.Proofs.Inheritance.Sharing

/-!
# Grants of elevated roles

A shared notebook passes on no grant of an elevated role.  So a run in which grants follow every
membership, and are never edited, brings such a grant to an item in two ways only: the item is
inserted with it, or it is at that time in a container that has the grant and **is no shared
notebook**.  And a grant goes with the membership that it came by, unless another container of the
item has it: it never goes **astray**, that is, stays where no container of the item has it, but
with an item that was inserted with it (`elevated_grants_supplied`).

* `Sound.recedes_remove`, `Sound.recedes_destroy`: nothing goes astray **when memberships end**.
* `ByInheritance.cases`: every request inserts an item, or makes grants recede, if they change at
  all, and then puts at most one item into a container.
* `cameAbout_of_step`: what a run came to **came about at some step**, and was there ever since.

The container that has the grant in the end may well be a shared notebook: it became one later, or
the grant came by way of another container.  So an item that is in shared notebooks alone can have
grants of elevated roles that it was not inserted with (`elevated_grant_clings`).
-/

namespace Filing

open Cabinet Relation

variable {c c' : Cabinet} {id : ItemId} {g : Grant}

/-! ## Grants that no container has -/

namespace Cabinet

/-- The item has the grant, and no container of it has. -/
def Stray (c : Cabinet) (id : ItemId) (g : Grant) : Prop :=
  c.Has id g ∧ ∀ p, c.Holds p id → ¬c.Has p g

/-- No item gains a grant, and no private grant goes astray. -/
structure Recedes (c c' : Cabinet) : Prop where
  had : ∀ {id g}, c'.Has id g → c.Has id g
  stray : ∀ {id g}, g.isPublic = false → c'.Stray id g → c.Stray id g

namespace Recedes

theorem refl (c : Cabinet) : Recedes c c := ⟨fun hg => hg, fun _ hg => hg⟩

theorem of_eq (hg : ∀ id, (c'.item? id).map Item.access = (c.item? id).map Item.access)
    (hh : ∀ p x, c'.Holds p x ↔ c.Holds p x) : Recedes c c' := by
  refine ⟨(has_congr (hg _)).mp, fun _ ⟨hx, hnone⟩ => ⟨(has_congr (hg _)).mp hx, ?_⟩⟩
  intro p hp hpg
  exact hnone p ((hh p _).mpr hp) ((has_congr (hg p)).mpr hpg)

end Recedes

namespace Sound

/-- **A removal makes grants recede.**  Nothing that is retracted from goes astray, and neither does
what is not. -/
theorem recedes_remove (hs : c.Sound) (parent child : ItemId) :
    Recedes c ((remove parent child .inherit).on c).2 := by
  by_cases hh : c.Holds parent child
  · obtain ⟨c', hremove, hholds, hspec⟩ := hs.on_remove_inherit hh
    rw [hremove]
    refine ⟨fun hg => ((hspec _ _).mp hg).1, fun {x g} hpriv hg => ?_⟩
    obtain ⟨hx, hnone⟩ := hg
    obtain ⟨hx, hkept⟩ := (hspec x g).mp hx
    refine ⟨hx, fun p hp hpg => ?_⟩
    -- what is retracted from and has the grant still is in a container that has it
    have hout : c.Has parent g → c.Has child g → ¬ReflTransGen c'.Holds child x := by
      intro hpar hch hw
      obtain ⟨q, hq, hqg⟩ := hkept hw hpar hch hpriv
      exact hnone q hq hqg
    by_cases hedge : p = parent ∧ x = child
    · obtain ⟨rfl, rfl⟩ := hedge
      exact hout hpg hx .refl
    · -- if the container were retracted from, then the item would be so, too
      have hpx : c'.Holds p x := (hholds p x).mpr ⟨hp, hedge⟩
      refine hnone p hpx ((hspec p g).mpr ⟨hpg, fun hw hpar hch _ => ?_⟩)
      exact absurd (hw.tail hpx) (hout hpar hch)
  · rw [hs.on_remove_of_not_holds hh]
    exact .refl c

/-- **A destruction makes grants recede**: the item had no members. -/
theorem recedes_destroy (hs : c.Sound) (id : ItemId) : Recedes c ((destroy id).on c).2 := by
  cases hi : c.item? id with
  | none =>
    rw [on_destroy_of_none hi]
    exact .refl c
  | some i =>
    by_cases hocc : c.Occupied id
    · rw [hs.on_destroy_of_occupied hocc]
      exact .refl c
    · obtain ⟨c', hon, hd⟩ := hs.on_destroy_of_not_occupied hi hocc
      rw [hon]
      -- all other items have what they had, and are in the containers that they were in
      have hhas : ∀ {x g}, c'.Has x g ↔ c.Has x g ∧ x ≠ id := by
        intro x g
        unfold Has
        rw [hd.item?]
        by_cases hx : x = id <;> cases c.item? x <;> simp [hx]
      refine ⟨fun hg => (hhas.mp hg).1, fun {x g} _ hg => ?_⟩
      obtain ⟨hx, hnone⟩ := hg
      obtain ⟨hx, hne⟩ := hhas.mp hx
      refine ⟨hx, fun p hp hpg => hnone p ((hs.holds_iff_of_disposed hi hd).mpr ⟨hp, hne⟩) ?_⟩
      refine hhas.mpr ⟨hpg, ?_⟩
      rintro rfl
      exact hs.not_holds_of_not_occupied hi hocc x hp

end Sound

end Cabinet

/-! ## Requests -/

namespace Request

/-- Grants follow every membership, down to everything below and back, and are not edited. -/
def ByInheritance (c : Cabinet) : Request → Prop
  | operation (.insert item) => c.contains item.id = false
  | operation (.add _ _ a) => a.propagation = .inherit
  | operation (.remove _ _ p) => p = .inherit
  | operation (.move ..) => c.settings.movePolicy = .inherit
  | operation (.setAccess ..) => False
  | operation _ => True
  | _ => False

theorem ByInheritance.fresh {r : Request} (h : r.ByInheritance c) : r.Fresh c :=
  fresh_of_insert (by rintro item rfl; exact h)

/-- **What such a request does**: it inserts an item, or makes grants recede, if they change at all,
and then puts at most one item into a container. -/
theorem ByInheritance.cases {r : Request} (h : c.Orderly) (hr : r.ByInheritance c) :
    (∃ item, r = operation (.insert item) ∧ c.item? item.id = none) ∨
      ∃ c₁, Recedes c c₁ ∧
        (r.after c = c₁ ∨ ∃ parent child, c₁.Joins parent child (r.after c)) := by
  have hrec : Recedes c (r.after c) → ∃ c₁, Recedes c c₁ ∧
      (r.after c = c₁ ∨ ∃ parent child, c₁.Joins parent child (r.after c)) :=
    fun hc => ⟨_, hc, .inl rfl⟩
  cases r with
  | configure settings => exact hr.elim
  | onAdd p parent child => exact hr.elim
  | onRemove p parent child => exact hr.elim
  | operation op =>
    have hafter : (operation op).after c = op.after c := rfl
    rw [hafter] at hrec ⊢
    cases op with
    | insert item => exact .inl ⟨item, rfl, SortedMap.contains_eq_false_iff.mp hr⟩
    | add parent child a =>
      refine .inr ⟨c, .refl c, ?_⟩
      rw [Operation.after_add]
      rcases h.toSound.on_add_converting h.toAccounted parent child (a := a) (by
        rw [show a.propagation = .inherit from hr]
        rfl) with hadd | ⟨c', hadd, _, hjoins⟩
      · exact .inl hadd
      · rw [hadd]
        exact .inr ⟨parent, child, hjoins⟩
    | remove parent child p =>
      rw [Operation.after_remove, show p = .inherit from hr] at hrec ⊢
      exact .inr (hrec (h.toSound.recedes_remove parent child))
    | move item origin target acting unrestricted now =>
      -- a move is a removal, and then perhaps an addition
      have hpolicy : c.settings.movePolicy = .inherit := hr
      rw [Operation.after_move] at hrec ⊢
      have hremove := h.toSound.recedes_remove origin item
      rcases h.toSound.on_move_converting h.toAccounted item origin target acting unrestricted now
        (by rw [hpolicy]; rfl) rfl with hm | ⟨c₁, hc₁, hm⟩
      · rw [hm] at hrec ⊢
        exact .inr (hrec (.refl c))
      · rw [hpolicy] at hc₁
        exact .inr ⟨c₁, hc₁ ▸ hremove, hm.imp_right fun hjoins => ⟨target, item, hjoins⟩⟩
    | mark key deleted now =>
      refine .inr (hrec ?_)
      rcases Operation.after_mark c key deleted now with hm | ⟨e, hm⟩ <;> rw [hm]
      · exact .refl c
      · exact .of_eq (fun _ => rfl) fun _ _ => holds_markEdge
    | setDeleted j deleted =>
      refine .inr (hrec ?_)
      rcases Operation.after_setDeleted c j deleted with hm | hm <;> rw [hm]
      · exact .refl c
      · refine .of_eq (fun x => map_item?_modifyItem c j x _ ?_) fun _ _ => Iff.rfl
        exact fun _ => rfl
    | setAccess j access => exact hr.elim
    | destroy j =>
      rw [Operation.after_destroy] at hrec ⊢
      exact .inr (hrec (h.toSound.recedes_destroy j))
    | flush =>
      exact .inr (hrec (.of_eq (map_item?_of_map (item?_flushDeferred c) fun _ _ => rfl)
        fun _ _ => holds_flushDeferred))

end Request

/-! ## What an item gains -/

namespace Cabinet

/-- A container of the item that is no shared notebook has the grant. -/
def Supplies (c : Cabinet) (id : ItemId) (g : Grant) : Prop :=
  ∃ p ∈ c.parents id, c.Has p g ∧ ∃ k, c.kind? p = some k ∧ k ≠ .container .sharedNotebook

theorem Sound.supplies_of_offers (hs : c.Sound) {p : ItemId}
    (hel : c.settings.isElevated g.principal = true) (hp : c.Holds p id) (ho : c.Offers p g) :
    c.Supplies id g := by
  obtain ⟨i, hi, hg⟩ := ho
  obtain ⟨hga, _, hcol⟩ := mem_passedOn_iff.mp hg
  refine ⟨p, hs.mem_parents_iff.mpr hp, ⟨i, hi, hga⟩, i.kind, congrArg (Option.map Item.kind) hi,
    fun hk => ?_⟩
  rw [hk] at hcol
  rw [hcol rfl] at hel
  cases hel

end Cabinet

theorem Settings.isPublic_of_isElevated {s : Settings} (h : s.isElevated g.principal = true) :
    g.isPublic = false := by
  rw [isElevated] at h
  rw [Grant.isPublic]
  cases hg : g.principal <;> rw [hg] at h <;> first | rfl | cases h

namespace Request

variable {r : Request}

/-- The request inserts the item with the grant. -/
def InsertsWith (id : ItemId) (g : Grant) : Request → Prop
  | operation (.insert item) => item.id = id ∧ g ∈ item.access
  | _ => False

theorem has_insertItem {item : Item} (hn : c.item? item.id = none)
    (hg : (c.insertItem item).Has id g) :
    c.Has id g ∨ (operation (.insert item)).InsertsWith id g ∧ ¬c.Has id g := by
  obtain ⟨i, hi, hgi⟩ := hg
  rw [item?_insertItem] at hi
  split at hi
  · next hid =>
    cases hi
    refine .inr ⟨⟨hid.symm, hgi⟩, ?_⟩
    rintro ⟨j, hj, _⟩
    rw [hid, hn] at hj
    cases hj
  · exact .inl ⟨i, hi, hgi⟩

/-- **What an item gains** it is inserted with, or one of its containers offers it. -/
theorem gained_after (h : c.Orderly) (hr : r.ByInheritance c) (hg : (r.after c).Has id g) :
    c.Has id g ∨ r.InsertsWith id g ∨ ∃ p, (r.after c).Holds p id ∧ (r.after c).Offers p g := by
  rcases hr.cases h with ⟨item, rfl, hn⟩ | ⟨c₁, hc₁, hend | ⟨parent, child, hjoins⟩⟩
  · exact (has_insertItem hn hg).imp_right fun hins => .inl hins.1
  · exact .inl (hc₁.had (hend ▸ hg))
  · exact (hjoins.inherits.gained hg).imp hc₁.had .inr

/-- **No private grant goes astray** but with an item that is inserted with it. -/
theorem stray_after (h : c.Orderly) (hr : r.ByInheritance c) (hpriv : g.isPublic = false)
    (hg : (r.after c).Stray id g) : c.Stray id g ∨ r.InsertsWith id g ∧ ¬c.Has id g := by
  obtain ⟨hid, hnone⟩ := hg
  rcases hr.cases h with ⟨item, rfl, hn⟩ | ⟨c₁, hc₁, hend | ⟨parent, child, hjoins⟩⟩
  · refine (has_insertItem hn hid).imp_left fun hold => ⟨hold, fun p hp hpg => hnone p hp ?_⟩
    -- a container that had the grant before is not the item that is inserted
    obtain ⟨i, hi, hgi⟩ := hpg
    refine ⟨i, ?_, hgi⟩
    show (c.insertItem item).item? p = some i
    rw [item?_insertItem, if_neg, hi]
    rintro rfl
    rw [hn] at hi
    cases hi
  · exact .inl (hc₁.stray hpriv (hend ▸ ⟨hid, hnone⟩))
  · refine .inl (hc₁.stray hpriv ⟨?_, fun p hp hpg => ?_⟩)
    · rcases hjoins.inherits.gained hid with hold | ⟨p, hp, i, hi, hoff⟩
      · exact hold
      · exact absurd ⟨i, hi, (mem_passedOn_iff.mp hoff).1⟩ (hnone p hp)
    · exact hnone p ((hjoins.holds p id).mpr (.inl hp)) (hjoins.inherits.kept hpg)

/-! ## Runs -/

/-- How the grant came to the item in the course of a run: a request brought it in such a way, to an
item that did not have it, and the item has it ever since. -/
def CameAbout (how : Request → Cabinet → Prop) (l : List Request) (c : Cabinet) (id : ItemId)
    (g : Grant) : Prop :=
  ∃ l₁ r l₂, l = l₁ ++ r :: l₂ ∧ ¬(afterAll l₁ c).Has id g ∧
    (∀ m, m <+: l₂ → (afterAll (l₁ ++ r :: m) c).Has id g) ∧ how r (afterAll (l₁ ++ [r]) c)

section Run

variable {settings : Settings} {epoch : Epoch} {l : List Request}
  {how : Request → Cabinet → Prop}

theorem CameAbout.snoc (h : CameAbout how l c id g) (hg : (afterAll (l ++ [r]) c).Has id g) :
    CameAbout how (l ++ [r]) c id g := by
  obtain ⟨l₁, s, l₂, rfl, hnot, hever, hhow⟩ := h
  refine ⟨l₁, s, l₂ ++ [r], by simp, hnot, fun m hm => ?_, hhow⟩
  rcases List.prefix_concat_iff.mp hm with rfl | hm
  · simpa using hg
  · exact hever m hm

theorem settings_after (h : c.Orderly) (hr : r.ByInheritance c) :
    (r.after c).settings = c.settings := by
  rcases changes_links h.toListed hr.fresh with ⟨settings, rfl⟩ | hc
  · exact hr.elim
  · exact hc.settings

theorem settings_afterAll (h : c.Orderly) (hl : AllAllowed ByInheritance l c)
    (hn : c.nextEdge.toNat + linksAll l c < 2 ^ 64) :
    (afterAll l c).Orderly ∧ (afterAll l c).settings = c.settings := by
  obtain ⟨ho, hset, _⟩ := invariant_afterAll (I := fun d => d.settings = c.settings)
    ByInheritance.fresh (fun ho hr _ hset => (settings_after ho hr).trans hset) h rfl hl hn
  exact ⟨ho, hset⟩

/-- **What a run came to came about** at some step of it, if no request brings it to an item that
has the grant or in another way. -/
theorem cameAbout_of_step {P : Cabinet → Prop} (hhas : ∀ {d}, P d → d.Has id g)
    (hstep : ∀ {d r}, d.Orderly → (r.after d).Orderly → (r.after d).settings = c.settings →
      r.ByInheritance d → P (r.after d) → P d ∨ how r (r.after d) ∧ ¬d.Has id g)
    (ho : c.Orderly) (hl : AllAllowed ByInheritance l c)
    (hn : c.nextEdge.toNat + linksAll l c < 2 ^ 64) (hnone : ¬P c) (h : P (afterAll l c)) :
    CameAbout how l c id g := by
  induction l using List.reverseRecOn with
  | nil => exact absurd h hnone
  | append_singleton l r ih =>
    obtain ⟨hlater, hset⟩ := settings_afterAll ho hl hn
    obtain ⟨hl, hr, _⟩ := allAllowed_append.mp hl
    rw [linksAll_append] at hn
    have hlast : afterAll (l ++ [r]) c = r.after (afterAll l c) := afterAll_append l [r] c
    rw [hlast] at hlater hset h
    rcases hstep (settings_afterAll ho hl (by omega)).1 hlater hset hr h with hold | ⟨hhow, hnew⟩
    · refine (ih hl (by omega) hold).snoc ?_
      rw [hlast]
      exact hhas h
    · refine ⟨l, r, [], rfl, hnew, fun m hm => ?_, hlast ▸ hhow⟩
      rw [List.prefix_nil.mp hm, hlast]
      exact hhas h

/-- **Who has a grant of an elevated role** in a run in which grants follow the memberships was
inserted with it, or was then in a container that had it and was no shared notebook, and has it
since.  And some container of the item has the grant still, if the item was not inserted with it. -/
theorem elevated_grants_supplied (hl : AllAllowed ByInheritance l (.empty settings epoch))
    (hn : linksAll l (.empty settings epoch) < 2 ^ 64 - 1)
    (hel : settings.isElevated g.principal = true) (hc : afterAll l (.empty settings epoch) = c)
    (hg : c.Has id g) :
    CameAbout (fun r d => r.InsertsWith id g ∨ d.Supplies id g) l (.empty settings epoch) id g ∧
      ((∃ p ∈ c.parents id, c.Has p g) ∨
        CameAbout (fun r _ => r.InsertsWith id g) l (.empty settings epoch) id g) := by
  subst hc
  have ho := orderly_empty settings epoch
  have hlast := linksAll_lt hn
  have hnone : ¬(empty settings epoch).Has id g := by
    rintro ⟨i, hi, _⟩
    cases hi
  refine ⟨?gained, ?kept⟩
  case gained =>
    refine cameAbout_of_step (P := (Cabinet.Has · id g)) (fun hd => hd) ?_ ho hl hlast hnone hg
    intro d r hd hd' hset hr hg
    by_cases hold : d.Has id g
    · exact .inl hold
    · refine .inr ⟨?_, hold⟩
      rcases gained_after hd hr hg with hg | hins | ⟨p, hp, hoff⟩
      · exact absurd hg hold
      · exact .inl hins
      · exact .inr (hd'.toSound.supplies_of_offers (hset ▸ hel) hp hoff)
  case kept =>
    obtain ⟨ho', _⟩ := settings_afterAll ho hl hlast
    by_cases hsup : ∃ p, (afterAll l (.empty settings epoch)).Holds p id ∧
        (afterAll l (.empty settings epoch)).Has p g
    · obtain ⟨p, hp, hpg⟩ := hsup
      exact .inl ⟨p, ho'.mem_parents_iff.mpr hp, hpg⟩
    · refine .inr (cameAbout_of_step (P := (Cabinet.Stray · id g)) (·.1)
        (fun hd _ _ hr => stray_after hd hr (Settings.isPublic_of_isElevated hel)) ho hl hlast
        (fun h => hnone h.1) ⟨hg, fun p hp hpg => hsup ⟨p, hp, hpg⟩⟩)

/-- A grant of an elevated role. -/
def elevatedRead : Grant := ⟨.role "ROLE_PI", ⟨"READ"⟩⟩

/-- A notebook passes the grant on to a document, and goes into a sharing area after that. -/
def sharedLater : List Request :=
  [.insert (.bare 1 .document []), .insert (.bare 2 (.container .notebook) [elevatedRead]),
    .insert (.bare 3 (.container .sharedRoot) []), .add (.ofNat 2) (.ofNat 1) (.bare .inherit),
    .add (.ofNat 3) (.ofNat 2) (.bare .inherit)].map operation

theorem allAllowed_sharedLater : AllAllowed ByInheritance sharedLater (.empty .standard 0) :=
  ⟨rfl, rfl, rfl, rfl, rfl, trivial⟩

/-- The document was given the grant while the notebook was none of a sharing area. -/
theorem elevated_grants_supplied_sharedLater : ∃ c, afterAll sharedLater (.empty .standard 0) = c ∧
    Settings.standard.isElevated elevatedRead.principal = true ∧ c.Has (.ofNat 1) elevatedRead ∧
    CameAbout (fun r d => r.InsertsWith (.ofNat 1) elevatedRead ∨
      d.Supplies (.ofNat 1) elevatedRead) sharedLater (.empty .standard 0) (.ofNat 1) elevatedRead ∧
    ((∃ p ∈ c.parents (.ofNat 1), c.Has p elevatedRead) ∨
      CameAbout (fun r _ => r.InsertsWith (.ofNat 1) elevatedRead) sharedLater (.empty .standard 0)
        (.ofNat 1) elevatedRead) := by
  have hel : Settings.standard.isElevated elevatedRead.principal = true := by decide
  have hn : linksAll sharedLater (.empty .standard 0) ≤ 5 := linksAll_le_length ..
  have hg : (afterAll sharedLater (.empty .standard 0)).Has (.ofNat 1) elevatedRead :=
    has_iff_any.mpr (by cbv)
  exact ⟨_, rfl, hel, hg, elevated_grants_supplied allAllowed_sharedLater (by omega) hel rfl hg⟩

/-- A document gets the grant in a folder, and leaves the folder when it is in a shared notebook as
well that has the same grant. -/
def leftForShared : List Request :=
  [.insert (.bare 1 .document []), .insert (.bare 2 (.container .sharedNotebook) [elevatedRead]),
    .insert (.bare 3 (.container .folder) [elevatedRead]),
    .add (.ofNat 3) (.ofNat 1) (.bare .inherit), .add (.ofNat 2) (.ofNat 1) (.bare .inherit),
    .remove (.ofNat 3) (.ofNat 1) .inherit].map operation

/-- After the run the item is in shared notebooks alone, and has a grant that it was not inserted
with. -/
def Clings (l : List Request) (c : Cabinet) (id : ItemId) (g : Grant) : Prop :=
  (afterAll l c).Has id g ∧ (∀ r ∈ l, ¬r.InsertsWith id g) ∧ (afterAll l c).parents id ≠ [] ∧
    ∀ p ∈ (afterAll l c).parents id, (afterAll l c).kind? p = some (.container .sharedNotebook)

/-- **A document that is in a shared notebook alone clings to a grant** of an elevated role that it
was not inserted with. -/
theorem elevated_grant_clings :
    Settings.standard.isElevated elevatedRead.principal = true ∧
      (AllAllowed ByInheritance sharedLater (.empty .standard 0) ∧
        Clings sharedLater (.empty .standard 0) (.ofNat 1) elevatedRead) ∧
      AllAllowed ByInheritance leftForShared (.empty .standard 0) ∧
        Clings leftForShared (.empty .standard 0) (.ofNat 1) elevatedRead := by
  have h₂ : ItemId.ofNat 2 ≠ .ofNat 1 := by decide
  have h₃ : ItemId.ofNat 3 ≠ .ofNat 1 := by decide
  have hlater : (afterAll sharedLater (.empty .standard 0)).parents (.ofNat 1) = [.ofNat 2] := by
    cbv
  have hleft : (afterAll leftForShared (.empty .standard 0)).parents (.ofNat 1) = [.ofNat 2] := by
    cbv
  refine ⟨by decide, ⟨allAllowed_sharedLater, has_iff_any.mpr (by cbv), ?_, by simp [hlater], ?_⟩,
    ⟨rfl, rfl, rfl, rfl, rfl, rfl, trivial⟩, has_iff_any.mpr (by cbv), ?_, by simp [hleft], ?_⟩
  · simp [sharedLater, InsertsWith, Item.bare, h₂]
  · simp only [hlater, List.forall_mem_singleton]
    cbv
  · simp [leftForShared, InsertsWith, Item.bare, h₂, h₃]
  · simp only [hleft, List.forall_mem_singleton]
    cbv

end Run

end Request

end Filing
