import Filing.Proofs.Inheritance.Closure

/-!
# What a removal withdraws

A removal takes back what a member may have got from the container that it leaves: the private
grants that both have.  It takes them from the member and from what the policy reaches below it, and
leaves those that another container supplies, which may itself have lost them by then.

* `Withdrawn`: what a removal leaves, told by the grants that all items have in the end.  As no item
  lies above itself, **this leaves no choice of the grants** (`Withdrawn.has_unique`).
* `Sound.withdrawn`: **a removal that succeeds withdraws, and does nothing else**.
* `Request.remove_withdraws`: this after every run, for every policy.
-/

namespace Filing

open Cabinet Relation

namespace Cabinet

variable {c c' : Cabinet} {parent child : ItemId}

/-- The grant is private and both items have it, so a removal takes it back where no container
supplies it. -/
def InCommon (c : Cabinet) (parent child : ItemId) (g : Grant) : Prop :=
  g.isPublic = false ∧ c.Has parent g ∧ c.Has child g

/-- **What the removal of `child` from `parent` leaves.**  The membership is gone with its edge; an
item that is affected keeps a shared grant only if a container of it has the grant in the end; all
other grants stay, and so does everything else about items and edges. -/
structure Withdrawn (c : Cabinet) (parent child : ItemId) (p : Propagation) (c' : Cabinet) :
    Prop where
  holds : ∀ q x, c'.Holds q x ↔ c.Holds q x ∧ ¬(q = parent ∧ x = child)
  has : ∀ n g, c'.Has n g ↔ c.Has n g ∧
    ¬(c.Affected child p n ∧ c.InCommon parent child g ∧ ∀ q, c'.Holds q n → ¬c'.Has q g)
  unaffected : ∀ n, ¬c.Affected child p n →
    (c'.item? n).map Item.access = (c.item? n).map Item.access
  item : ∀ n, (c'.item? n).map (·.detached.ungranted) = (c.item? n).map (·.detached.ungranted)
  edge : ∀ e edge, c'.edge? e = some edge ↔ c.edge? e = some edge ∧ edge.key ≠ ⟨child, parent⟩

/-- In the end an item has what it had, less the grants that are due and that no container of it
has. -/
def Spares (c c' : Cabinet) (due : ItemId → Grant → Prop) : Prop :=
  ∀ n g, c'.Has n g ↔ c.Has n g ∧ ¬(due n g ∧ ∀ q, c'.Holds q n → ¬c'.Has q g)

/-- **The grants that are left are determined**, container by container. -/
theorem Spares.has_unique {c'' : Cabinet} {due : ItemId → Grant → Prop} (h : c.Spares c' due)
    (h' : c.Spares c'' due) (hs : c.Sound) (hsub : ∀ q x, c'.Holds q x → c.Holds q x)
    (hh : ∀ q x, c''.Holds q x ↔ c'.Holds q x) (n : ItemId) (g : Grant) :
    c'.Has n g ↔ c''.Has n g := by
  induction n using hs.holds_induction with
  | hstep n ih =>
    rw [h, h']
    refine and_congr_right fun _ => not_congr (and_congr_right fun _ => forall_congr' fun q => ?_)
    rw [hh]
    exact imp_congr_right fun hq => not_congr (ih q (hsub q n hq))

theorem Withdrawn.spares {p : Propagation} (h : c.Withdrawn parent child p c') :
    c.Spares c' fun n g => c.Affected child p n ∧ c.InCommon parent child g := fun n g => by
  rw [h.has, and_assoc]

/-- **The grants that a removal leaves are determined.** -/
theorem Withdrawn.has_unique {c'' : Cabinet} {p : Propagation} (hs : c.Sound)
    (h : c.Withdrawn parent child p c') (h' : c.Withdrawn parent child p c'') (n : ItemId)
    (g : Grant) : c'.Has n g ↔ c''.Has n g :=
  h.spares.has_unique h'.spares hs (fun q x hq => ((h.holds q x).mp hq).1)
    (fun q x => (h'.holds q x).trans (h.holds q x).symm) n g

theorem Unlinked.edge?_eq_some_iff {key : Membership} {e : EdgeId} (h : c.Unlinked key e c')
    (hx : c.Indexed) {e' : EdgeId} {edge : Edge} :
    c'.edge? e' = some edge ↔ c.edge? e' = some edge ∧ edge.key ≠ key := by
  obtain ⟨edge₀, he₀, hkey⟩ := hx.index_iff.mp h.named
  constructor
  · intro he
    obtain ⟨hne, he⟩ := h.edge?_before he
    exact ⟨he, fun hk => hne (hx.eq_of_key_eq he he₀ (hk.trans hkey.symm))⟩
  · rintro ⟨he, hk⟩
    refine h.edge?_of_ne ?_ he
    rintro rfl
    cases he₀.symm.trans he
    exact hk hkey

/-- **A removal that there is something to remove for withdraws.** -/
theorem Sound.withdrawn (hs : c.Sound) (hh : c.Holds parent child) (p : Propagation) :
    ∃ c', (remove parent child p).on c = (.ok true, c') ∧ c.Withdrawn parent child p c' := by
  obtain ⟨e, c₁, c', _, hu, hr, hon, hspec⟩ := hs.on_remove hh p
  have hhas : ∀ n g, c'.Has n g ↔ c.Has n g ∧ ¬(c.Affected child p n ∧ c.InCommon parent child g ∧
      ∀ q, c'.Holds q n → ¬c'.Has q g) := by
    intro n g
    rw [hspec]
    refine and_congr_right fun _ => ?_
    simp only [InCommon, not_and, not_forall, not_not, exists_prop, and_imp]
    exact ⟨fun h ha hpriv hp hc => h ha hp hc hpriv, fun h ha hp hc hpriv => h ha hpriv hp hc⟩
  have hread : ∀ {α : Type} {f : Item → α}, (∀ i, f i.ungranted = f i) →
      (∀ i l l', f { i with parentEdges := l, childEdges := l' } = f i) →
      ∀ n, (c'.item? n).map f = (c.item? n).map f := by
    intro α f hf hf' n
    exact (hr.map_item? hf n).trans (map_item?_of_map hu.item? (fun _ _ => hf' ..) n)
  refine ⟨c', hon,
    { holds := fun q x => hr.retouched.holds_iff.trans (hu.holds_iff hs.toIndexed)
      has := hhas
      unaffected := fun n hn => ?unaffected
      item := hread (fun _ => rfl) fun _ _ _ => rfl
      edge := fun e' edge => ?edge }⟩
  case unaffected =>
    refine access_eq_of_has_iff (hread (fun _ => rfl) (fun _ _ _ => rfl) n) fun g => ?_
    rw [hhas]
    exact and_iff_left fun h => hn h.1
  case edge =>
    rw [edge?, hr.edges]
    exact hu.edge?_eq_some_iff hs.toIndexed

end Cabinet

/-! ## Runs -/

namespace Request

section Run

variable {settings : Settings} {epoch : Epoch} {c : Cabinet} {l : List Request}

/-- **A removal succeeds exactly if the member is in the container, and withdraws then**, in every
cabinet that a run from an empty one comes to. -/
theorem remove_withdraws (hl : AllAllowed Fresh l (.empty settings epoch))
    (hn : linksAll l (.empty settings epoch) < 2 ^ 64 - 1)
    (hc : afterAll l (.empty settings epoch) = c) (parent child : ItemId) (p : Propagation) :
    ((∃ c', (remove parent child p).on c = (.ok true, c')) ↔ c.Holds parent child) ∧
      ∀ c', (remove parent child p).on c = (.ok true, c') → c.Withdrawn parent child p c' := by
  have hs : c.Sound := hc ▸ sound_afterAll hl hn
  have hholds : ∀ c', (remove parent child p).on c = (.ok true, c') → c.Holds parent child := by
    intro c' hon
    by_contra hh
    rw [hs.on_remove_of_not_holds hh] at hon
    cases hon
  refine ⟨⟨fun ⟨c', hon⟩ => hholds c' hon, fun hh => ?_⟩, fun c' hon => ?_⟩
  · obtain ⟨c', hon, _⟩ := hs.withdrawn hh p
    exact ⟨c', hon⟩
  · obtain ⟨c'', hon', hw⟩ := hs.withdrawn (hholds c' hon) p
    rw [hon] at hon'
    cases hon'
    exact hw

/-- A grant of ann. -/
def annRead : Grant := ⟨.user "ann", ⟨"READ"⟩⟩

/-- A document is in two folders that are both in a third one, and gets a grant of that one. -/
def suppliedTwice : List Request :=
  [.insert (.bare 1 (.container .folder) [annRead]), .insert (.bare 2 (.container .folder) []),
    .insert (.bare 3 (.container .folder) []), .insert (.bare 4 .document []),
    .add (.ofNat 2) (.ofNat 4) (.bare .null), .add (.ofNat 3) (.ofNat 4) (.bare .null),
    .add (.ofNat 1) (.ofNat 2) (.bare .inherit),
    .add (.ofNat 1) (.ofNat 3) (.bare .inherit)].map operation

/-- When one of the folders leaves, it loses the grant, and the document below it does not. -/
theorem remove_withdraws_suppliedTwice : ∃ c c', afterAll suppliedTwice (.empty .standard 0) = c ∧
    (remove (.ofNat 1) (.ofNat 2) .inherit).on c = (.ok true, c') ∧
    c.Withdrawn (.ofNat 1) (.ofNat 2) .inherit c' ∧ ¬c'.Has (.ofNat 2) annRead ∧
    c'.Has (.ofNat 4) annRead := by
  have hl : AllAllowed Fresh suppliedTwice (.empty .standard 0) :=
    ⟨rfl, rfl, rfl, rfl, trivial, trivial, trivial, trivial, trivial⟩
  have hn : linksAll suppliedTwice (.empty .standard 0) ≤ 8 := linksAll_le_length ..
  have hs := sound_afterAll hl (by omega)
  obtain ⟨hiff, hall⟩ := remove_withdraws hl (by omega) rfl (.ofNat 1) (.ofNat 2) .inherit
  obtain ⟨c', hon⟩ := hiff.mpr (hs.isMember_iff.mp (by cbv))
  have hlast : c' = ((remove (.ofNat 1) (.ofNat 2) .inherit).on
      (afterAll suppliedTwice (.empty .standard 0))).2 := (congrArg Prod.snd hon).symm
  refine ⟨_, c', rfl, hon, hall c' hon, ?_, ?_⟩ <;> rw [hlast, has_iff_any]
  · rw [Bool.not_eq_true]
    cbv
  · cbv

end Run

end Request

end Filing
