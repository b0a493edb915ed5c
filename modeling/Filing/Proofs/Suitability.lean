import Filing.Proofs.Inheritance.Sharing

/-!
# Members that suit their containers

The standard policy lets a notebook hold documents only and puts a home folder into nothing.  It is
asked when an edge is made, about the kinds of that moment, and many kinds are converted later, far
from any edge that is made then.

* `ItemKind.Suits.becomes`: **what suits a container still suits it after conversions** of either or
  both, so no conversion has to be asked about.
* `Varied`: all that happens to memberships and kinds other than by new items and new edges.
* `members_suit`: if all additions follow the policy, moves being free, then in every run
  **notebooks have documents only for members, and home folders are in no container**.
-/

namespace Filing

open Cabinet

variable {c c' c'' : Cabinet} {parent child p x : ItemId}

/-! ## Kinds -/

namespace ItemKind

variable {k k' k'' l l' : ItemKind}

/-- A container of the first kind may hold an item of the second. -/
def Suits (k l : ItemKind) : Prop :=
  (k.isContainerThat ContainerKind.isNotebook = true → l = .document) ∧ l ≠ .container .root

/-- The kind is what it was, or has been converted. -/
def Becomes (k k' : ItemKind) : Prop := k' = k ∨ k' = k.sharedVariant

theorem Becomes.trans (h : k.Becomes k') (h' : k'.Becomes k'') : k.Becomes k'' := by
  rcases h with rfl | rfl
  · exact h'
  · rcases h' with rfl | rfl
    · exact .inr rfl
    · exact .inr k.sharedVariant_sharedVariant

theorem isNotebook_sharedVariant (k : ItemKind) :
    k.sharedVariant.isContainerThat ContainerKind.isNotebook =
      k.isContainerThat ContainerKind.isNotebook := by
  rcases k with _ | k
  · rfl
  · cases k <;> rfl

theorem sharedVariant_eq_root_iff (k : ItemKind) :
    k.sharedVariant = .container .root ↔ k = .container .root := by
  rcases k with _ | k
  · exact .rfl
  · cases k <;> decide

/-- **What suits a container still suits it after conversions.** -/
theorem Suits.becomes (h : k.Suits l) (hk : k.Becomes k') (hl : l.Becomes l') : k'.Suits l' := by
  have hk' : k'.isContainerThat ContainerKind.isNotebook =
      k.isContainerThat ContainerKind.isNotebook := by
    rcases hk with rfl | rfl
    · rfl
    · exact k.isNotebook_sharedVariant
  constructor
  · intro hn
    have hd : l = .document := h.1 (hk' ▸ hn)
    rcases hl with rfl | rfl <;> rw [hd]
    rfl
  · rcases hl with rfl | rfl
    · exact h.2
    · exact mt l.sharedVariant_eq_root_iff.mp h.2

end ItemKind

theorem AddPolicy.allows_standard_iff {i j : Item} :
    AddPolicy.standard.allows i j = true ↔ i.kind.Suits j.kind := by
  have hd : j.isDocument = true ↔ j.kind = .document := by
    rw [Item.isDocument, ItemKind.isContainer]
    cases j.kind <;> simp [ItemKind.container?]
  rw [allows, ItemKind.Suits, ← hd, Item.isNotebook]
  cases i.kind.isContainerThat ContainerKind.isNotebook <;> simp

namespace Cabinet

/-! ## Steps that put nothing into a container -/

/-- Memberships may have ended, items may have gone, and kinds may have been converted. -/
structure Varied (c c' : Cabinet) : Prop where
  holds : ∀ {p x}, c'.Holds p x → c.Holds p x
  becomes : ∀ {id k'}, c'.kind? id = some k' → ∃ k, c.kind? id = some k ∧ k.Becomes k'

namespace Varied

theorem trans (h : Varied c c') (h' : Varied c' c'') : Varied c c'' where
  holds hh := h.holds (h'.holds hh)
  becomes hk := by
    obtain ⟨k', hk', hbec'⟩ := h'.becomes hk
    obtain ⟨k, hk, hbec⟩ := h.becomes hk'
    exact ⟨k, hk, hbec.trans hbec'⟩

theorem of_loosened (h : Loosened c c') : Varied c c' :=
  ⟨h.holds, fun {id k'} hk => ⟨k', h.kind? id ▸ hk, .inl rfl⟩⟩

theorem refl (c : Cabinet) : Varied c c := of_loosened (.refl c)

theorem eraseItem (c : Cabinet) (id : ItemId) : Varied c (c.eraseItem id) where
  holds hh := hh
  becomes {_ k'} hk := ⟨k', kind?_before_erase hk, .inl rfl⟩

theorem shareItem (c : Cabinet) (id : ItemId) : Varied c (c.shareItem id) where
  holds := (retouched_shareItem c id).holds_iff.mp
  becomes {j k'} hk := by
    rw [kind?, item?_shareItem] at hk
    split at hk
    · rw [Option.map_map] at hk
      obtain ⟨i, hi, rfl⟩ := Option.map_eq_some_iff.mp hk
      exact ⟨i.kind, Option.map_eq_some_iff.mpr ⟨i, hi, rfl⟩, .inr rfl⟩
    · exact ⟨k', hk, .inl rfl⟩

theorem convertKinds (parent child : ItemId) (c : Cabinet) :
    Varied c ((convertKinds parent child).on c).2 := by
  refine convertKinds_rel (R := Varied) .refl .trans ?_ parent child c
  intro c id i kind hi hk
  rw [← shareItem_of_container hi hk]
  exact .shareItem c id

theorem settle (a : Addition) (parent child : ItemId) (e : EdgeId) (c : Cabinet) :
    Varied c ((a.settle parent child e).on c).2 :=
  settle_rel (R := Varied) .trans .convertKinds
    (fun p parent child c => .of_loosened (p.regranted_onAdd parent child c).loosened)
    a parent child e c

end Varied

/-! ## Suitable members -/

/-- **Every member suits its container**, by the kinds that both have now. -/
def Suited (c : Cabinet) : Prop :=
  ∀ p x k l, c.Holds p x → c.kind? p = some k → c.kind? x = some l → k.Suits l

theorem Suited.varied (h : c.Suited) (hv : Varied c c') : c'.Suited := by
  intro p x k' l' hpx hk' hl'
  obtain ⟨k, hk, hbk⟩ := hv.becomes hk'
  obtain ⟨l, hl, hbl⟩ := hv.becomes hl'
  exact (h p x k l (hv.holds hpx) hk hl).becomes hbk hbl

theorem Suited.insertItem (h : c.Suited) (hc : c.Coherent) {item : Item}
    (hn : c.item? item.id = none) : (c.insertItem item).Suited := by
  intro p x k l hpx hk hl
  have hpx : c.Holds p x := hpx
  obtain ⟨hp, hx⟩ := hc.kind?_insertItem hn hpx
  exact h p x k l hpx (hp ▸ hk) (hx ▸ hl)

theorem Suited.withEdge (h : c.Suited) (ha : c.Accounted) {owner : Principal} {defer : Bool}
    {now : Timestamp} (hadd : c.checkAdd parent child .standard = .ok ()) :
    (c.withEdge ⟨child, parent⟩ owner defer now).Suited := by
  obtain ⟨_, ⟨i, j, hi, _, hj, hallowed⟩, _⟩ := checkAdd_eq_ok_iff.mp hadd
  intro p x k l hpx hk hl
  rw [kind?_withEdge] at hk hl
  rcases (holds_withEdge _ _ _ ha.nextEdge_free).mp hpx with hpx | ⟨rfl, rfl⟩
  · exact h p x k l hpx hk hl
  · rw [kind?, hi] at hk
    rw [kind?, hj] at hl
    cases hk
    cases hl
    exact AddPolicy.allows_standard_iff.mp hallowed

theorem Suited.add (h : c.Suited) (hc : c.Accounted) {a : Addition} (ha : a.policy = .standard) :
    ((Filing.add parent child a).on c).2.Suited := by
  cases hadd : c.checkAdd parent child a.policy with
  | error x =>
    rw [on_add_refused hadd]
    exact h
  | ok =>
    cases hi : c.index.find? ⟨child, parent⟩ with
    | some e =>
      rw [on_add_present hadd hi]
      exact h
    | none =>
      rw [on_add_created hadd hi]
      exact (h.withEdge hc (ha ▸ hadd)).varied (.settle ..)

/-- **A move follows the policy**, also an unrestricted one. -/
theorem Suited.move (h : c.Suited) (hc : c.Accounted) (item origin target : ItemId)
    (acting : Principal) (unrestricted : Bool) (now : Timestamp) :
    ((Filing.move item origin target acting unrestricted now).on c).2.Suited := by
  have hremove := h.varied (.of_loosened (ending_loosened.remove origin item c.settings.movePolicy
    c))
  rcases on_move_cases item origin target acting unrestricted now c with hm | hm | hm <;> rw [hm]
  · exact h
  · exact hremove
  · have hlt : c.nextEdge.toNat + 0 < 2 ^ 64 := c.nextEdge.value.toNat_lt
    exact hremove.add ((changes_remove origin item _ c).accounted hc hlt).1 rfl

end Cabinet

/-! ## Runs -/

namespace Request

/-- New items, and additions that follow the standard policy; other requests are free. -/
def Guarded (c : Cabinet) : Request → Prop
  | operation (.insert item) => c.contains item.id = false
  | operation (.add _ _ a) => a.policy = .standard
  | _ => True

theorem Guarded.fresh {r : Request} (h : r.Guarded c) : r.Fresh c :=
  fresh_of_insert (by rintro item rfl; exact h)

/-- **Every such request keeps members suitable.** -/
theorem suited_after {r : Request} (h : c.Orderly) (hr : r.Guarded c) (hs : c.Suited) :
    (r.after c).Suited := by
  have hloose : r.Loosening → (r.after c).Suited := by
    intro hl
    rcases loosened_after hl c with hl | ⟨c', id, hl, hd⟩
    · exact hs.varied (.of_loosened hl)
    · rw [hd]
      exact hs.varied ((Varied.of_loosened hl).trans (.eraseItem c' id))
  cases r with
  | operation op =>
    cases op with
    | insert item => exact hs.insertItem h.toCoherent (SortedMap.contains_eq_false_iff.mp hr)
    | add parent child a =>
      show (Operation.after _ c).Suited
      rw [Operation.after_add]
      exact hs.add h.toAccounted hr
    | move item origin target acting unrestricted now =>
      show (Operation.after _ c).Suited
      rw [Operation.after_move]
      exact hs.move h.toAccounted item origin target acting unrestricted now
    | _ => exact hloose trivial
  | _ => exact hloose trivial

section Run

variable {settings : Settings} {epoch : Epoch} {l : List Request}

theorem suited_afterAll (hl : AllAllowed Guarded l (.empty settings epoch))
    (hn : linksAll l (.empty settings epoch) < 2 ^ 64 - 1) :
    (afterAll l (.empty settings epoch)).Orderly ∧ (afterAll l (.empty settings epoch)).Suited := by
  have hstart : (Cabinet.empty settings epoch).Suited :=
    fun p x k l hpx => absurd hpx (not_holds_empty settings epoch)
  obtain ⟨ho, hs, _⟩ := invariant_afterAll Guarded.fresh
    (fun ho hr _ hs => suited_after ho hr hs) (orderly_empty settings epoch) hstart hl
    (linksAll_lt hn)
  exact ⟨ho, hs⟩

/-- **Notebooks hold documents, and home folders are in nothing.**  In every run from an empty
cabinet in which additions follow the standard policy, whichever way one asks for the members of a
notebook, shared or not, each is stored and is a document, and whichever way one asks for the
containers of a home folder, there is none. -/
theorem members_suit (hl : AllAllowed Guarded l (.empty settings epoch))
    (hn : linksAll l (.empty settings epoch) < 2 ^ 64 - 1)
    (hc : afterAll l (.empty settings epoch) = c) :
    (∀ p x i, c.item? p = some i → i.isNotebook = true →
        (x ∈ c.children p ∨ p ∈ c.parents x ∨ c.isMember ⟨x, p⟩ = true) →
        ∃ j, c.item? x = some j ∧ j.kind = .document) ∧
      ∀ x j, c.item? x = some j → j.kind = .container .root →
        c.parents x = [] ∧ ∀ p, x ∉ c.children p ∧ c.isMember ⟨x, p⟩ = false := by
  subst hc
  obtain ⟨ho, hs⟩ := suited_afterAll hl hn
  constructor
  · intro p x i hi hnotebook hm
    have hpx : (afterAll l (.empty settings epoch)).Holds p x := by
      rcases hm with hm | hm | hm
      · exact ho.mem_children_iff.mp hm
      · exact ho.mem_parents_iff.mp hm
      · exact ho.isMember_iff.mp hm
    obtain ⟨j, hj⟩ := ho.item_stored hpx
    have hsuits := hs p x i.kind j.kind hpx (congrArg (Option.map Item.kind) hi)
      (congrArg (Option.map Item.kind) hj)
    exact ⟨j, hj, hsuits.1 hnotebook⟩
  · intro x j hj hroot
    have hout : ∀ p, ¬(afterAll l (.empty settings epoch)).Holds p x := by
      intro p hpx
      obtain ⟨i, hi⟩ := ho.container_stored hpx
      exact (hs p x i.kind j.kind hpx (congrArg (Option.map Item.kind) hi)
        (congrArg (Option.map Item.kind) hj)).2 hroot
    refine ⟨List.eq_nil_iff_forall_not_mem.mpr fun p hm => hout p (ho.mem_parents_iff.mp hm),
      fun p => ⟨fun hm => hout p (ho.mem_children_iff.mp hm), ?_⟩⟩
    exact Bool.eq_false_iff.mpr fun hm => hout p (ho.isMember_iff.mp hm)

/-- A notebook with a document, in a folder that is put into a sharing area.  Then a folder is
refused by the notebook and a home folder by the folder, and a second document moves into the
notebook from outside the area. -/
def admissions : List Request :=
  [.insert (.bare 1 (.container .sharedRoot) []), .insert (.bare 2 (.container .folder) []),
    .insert (.bare 3 (.container .notebook) []), .insert (.bare 4 .document []),
    .insert (.bare 5 (.container .root) []), .insert (.bare 6 .document []),
    .add (.ofNat 2) (.ofNat 3) (.bare .inherit), .add (.ofNat 3) (.ofNat 4) (.bare .null),
    .add (.ofNat 1) (.ofNat 2) (.bare .inherit), .add (.ofNat 3) (.ofNat 2) (.bare .null),
    .add (.ofNat 2) (.ofNat 5) (.bare .share), .add (.ofNat 5) (.ofNat 6) (.bare .inherit),
    .move (.ofNat 6) (.ofNat 5) (.ofNat 3) .anonymous true .start].map operation

/-- The notebook is a shared one by then. -/
theorem members_suit_admissions : ∃ c, afterAll admissions (.empty .standard 0) = c ∧
    (c.kind? (.ofNat 3) = some (.container .sharedNotebook) ∧
      c.children (.ofNat 3) = [.ofNat 4, .ofNat 6] ∧ c.kind? (.ofNat 5) = some (.container .root)) ∧
    (∀ p x i, c.item? p = some i → i.isNotebook = true →
        (x ∈ c.children p ∨ p ∈ c.parents x ∨ c.isMember ⟨x, p⟩ = true) →
        ∃ j, c.item? x = some j ∧ j.kind = .document) ∧
      ∀ x j, c.item? x = some j → j.kind = .container .root →
        c.parents x = [] ∧ ∀ p, x ∉ c.children p ∧ c.isMember ⟨x, p⟩ = false := by
  have hl : AllAllowed Guarded admissions (.empty .standard 0) :=
    ⟨rfl, rfl, rfl, rfl, rfl, rfl, rfl, rfl, rfl, rfl, rfl, rfl, trivial, trivial⟩
  have hn : linksAll admissions (.empty .standard 0) ≤ 13 := linksAll_le_length ..
  refine ⟨_, rfl, ⟨by cbv, by cbv, by cbv⟩, ?_⟩
  exact members_suit hl (by omega) rfl

end Run

end Request

end Filing
