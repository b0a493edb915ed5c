import Filing.Proofs.Cabinet.Alike
import Filing.Proofs.Inheritance.Conversion
import Filing.Proofs.Inheritance.Outcome

/-!
# Kinds and grants in alike cabinets

Where containers list their members in different orders, conversions, merges and retractions visit
items in different orders.  They come to the same all the same, since what they come to can be told
without any order (`Sound.on_convertKinds`, `Sound.on_mergeDown`, `Sound.on_retractDown`).

* `Twins.regranted`: twins whose items have the same grants afterwards are twins again.
* `Twins.convertKinds`, `Twins.onAdd`, `Twins.onRemove`: **kinds and grants settle alike in twins**,
  with the same answer (`Agree`).
-/

namespace Filing

open Cabinet Relation

variable {α β : Type} {c c' d d' : Cabinet}

/-! ## Edits that agree -/

/-- Two edits gave the same answer, and left twins. -/
structure Agree (r r' : Except Failure α × Cabinet) : Prop where
  answer : r'.1 = r.1
  twins : Twins r.2 r'.2

theorem Cabinet.Twins.agree (h : Twins c c') (a : Except Failure α) : Agree (a, c) (a, c') :=
  ⟨rfl, h⟩

theorem Agree.bind {e e' : Edit α} {f f' : α → Edit β} (h : Agree (e.on c) (e'.on c'))
    (hf : ∀ a d d', Twins d d' → Agree ((f a).on d) ((f' a).on d')) :
    Agree ((e >>= f).on c) ((e' >>= f').on c') := by
  rw [Edit.on_bind, Edit.on_bind]
  generalize e.on c = r at h
  generalize e'.on c' = r' at h
  obtain ⟨x | a, d⟩ := r <;> obtain ⟨x' | a', d'⟩ := r' <;> obtain ⟨ha, ht⟩ := h <;> cases ha
  · exact ht.agree _
  · exact hf a d d' ht

namespace Cabinet

/-! ## Kinds -/

namespace Alike

variable {l l' : List ItemId}

theorem isConvertible (h : Alike c c') (id : ItemId) :
    c'.isConvertible id = c.isConvertible id := by
  rw [Cabinet.isConvertible, Cabinet.isConvertible]
  cases hi : c.item? id with
  | none => rw [h.item?_of_none hi]
  | some i =>
    obtain ⟨l, hi'⟩ := h.item?_of_some hi
    rw [hi']
    rfl

/-- **The order in which kinds are converted does not matter.** -/
theorem shareAll (h : Alike c c') (hn : l.Nodup) (hn' : l'.Nodup) (hl : ∀ x, x ∈ l' ↔ x ∈ l) :
    Alike (c.shareAll l) (c'.shareAll l') where
  settings := by
    rw [(retouched_shareAll c l).settings, (retouched_shareAll c' l').settings, h.settings]
  item id := by
    rw [item?_shareAll, item?_shareAll]
    simp only [hl]
    split
    · exact h.map_essence id fun i l => rfl
    · exact h.item id
  edge e := by
    rw [(retouched_shareAll c l).edge?, (retouched_shareAll c' l').edge?, h.edge]
  index := by
    rw [(retouched_shareAll c l).index, (retouched_shareAll c' l').index, h.index]
  nextEdge := by
    rw [(retouched_shareAll c l).nextEdge, (retouched_shareAll c' l').nextEdge, h.nextEdge]
  generation := by
    have hperm : l'.Perm l := (List.perm_ext_iff_of_nodup hn' hn).mpr hl
    rw [generation_shareAll c hn, generation_shareAll c' hn', h.generation, hperm.countP_eq,
      show c'.isConvertible = c.isConvertible from funext h.isConvertible]

end Alike

theorem Twins.convertKinds (h : Twins c c') {parent child : ItemId}
    (hp : ∃ i, c.item? parent = some i) (hc : ∃ j, c.item? child = some j) :
    Agree ((convertKinds parent child).on c) ((convertKinds parent child).on c') := by
  obtain ⟨i, hp⟩ := hp
  obtain ⟨j, hc⟩ := hc
  obtain ⟨_, hp'⟩ := h.alike.item?_of_some hp
  obtain ⟨_, hc'⟩ := h.alike.item?_of_some hc
  obtain ⟨l, hn, hl, hon⟩ := h.left.on_convertKinds hp hc
  obtain ⟨l', hn', hl', hon'⟩ := h.right.on_convertKinds hp' hc'
  rw [hon, hon']
  refine ⟨rfl, h.of_retouched (retouched_shareAll c l) (retouched_shareAll c' l') ?_⟩
  refine h.alike.shareAll hn hn' fun x => ?_
  rw [hl, hl', h.alike.holds_eq]
  rfl

/-! ## Grants -/

namespace Alike

variable {id : ItemId} {g : Grant}

theorem has_iff (h : Alike c c') : c'.Has id g ↔ c.Has id g := by
  cases hi : c.item? id with
  | none => simp [Has, hi, h.item?_of_none hi]
  | some i =>
    obtain ⟨l, hi'⟩ := h.item?_of_some hi
    rw [Cabinet.has_iff hi, Cabinet.has_iff hi']

theorem kind (h : Alike c c') (id : ItemId) :
    (c'.item? id).map Item.kind = (c.item? id).map Item.kind := by
  have hk : Item.kind = Item.kind ∘ Item.essence := rfl
  rw [hk, ← Option.map_map, h.item, Option.map_map]

theorem offers_iff (h : Alike c c') : c'.Offers id g ↔ c.Offers id g :=
  offers_congr h.settings (h.kind id) fun _ => h.has_iff

end Alike

namespace Twins

variable {parent child : ItemId} {reach : Reach}

theorem regranted (h : Twins c c') (hd : c.Regranted d) (hd' : c'.Regranted d')
    (hg : ∀ id g, d'.Has id g ↔ d.Has id g) : Twins d d' := by
  have hr := hd.retouched
  have hr' := hd'.retouched
  refine h.of_retouched hr hr' ⟨?_, fun id => ?_, fun e => ?_, ?_, ?_, ?_⟩
  · rw [hr.settings, hr'.settings, h.alike.settings]
  · cases hi : c.item? id with
    | none =>
      rw [hr.item?_eq_none_iff.mpr hi, hr'.item?_eq_none_iff.mpr (h.alike.item?_of_none hi)]
    | some i =>
      obtain ⟨l, hi'⟩ := h.alike.item?_of_some hi
      obtain ⟨a, hj⟩ := hd.item?_of_some hi
      obtain ⟨a', hj'⟩ := hd'.item?_of_some hi'
      have ha : a' = a := SortedSet.ext fun g => by
        rw [← Cabinet.has_iff hj (g := g), ← hg id g, Cabinet.has_iff hj']
      rw [hj, hj', ha]
      rfl
  · rw [hr.edge?, hr'.edge?, h.alike.edge]
  · rw [hr.index, hr'.index, h.alike.index]
  · rw [hr.nextEdge, hr'.nextEdge, h.alike.nextEdge]
  · rw [hd.generation, hd'.generation, h.alike.generation]

theorem mergeDown (h : Twins c c') (parent child : ItemId) (reach : Reach) :
    Agree ((mergeDown parent child reach).on c) ((mergeDown parent child reach).on c') := by
  cases hp : c.item? parent with
  | none =>
    rw [on_mergeDown_of_none hp, on_mergeDown_of_none (h.alike.item?_of_none hp)]
    exact h.agree _
  | some i =>
    obtain ⟨_, hp'⟩ := h.alike.item?_of_some hp
    cases hc : c.item? child with
    | none =>
      rw [h.left.on_mergeDown_of_missing hp hc,
        h.right.on_mergeDown_of_missing hp' (h.alike.item?_of_none hc)]
      exact h.agree _
    | some j =>
      obtain ⟨_, hc'⟩ := h.alike.item?_of_some hc
      obtain ⟨d, hd, hr, hspec⟩ := h.left.on_mergeDown hp hc reach
      obtain ⟨d', hd', hr', hspec'⟩ := h.right.on_mergeDown hp' hc' reach
      rw [hd, hd']
      have hset : d'.settings = d.settings := by
        rw [hr.retouched.settings, hr'.retouched.settings, h.alike.settings]
      have hkind : ∀ id, (d'.item? id).map Item.kind = (d.item? id).map Item.kind := fun id => by
        rw [hr.map_item? (fun _ => rfl), hr'.map_item? (fun _ => rfl), h.alike.kind]
      refine ⟨rfl, h.regranted hr hr' ?_⟩
      -- what an item gets depends on what the items above it offer in the end
      refine h.left.holds_induction fun id ih g => ?_
      rw [hspec, hspec', h.alike.has_iff, h.alike.offers_iff, h.alike.holds_eq]
      have hfeeds : c'.Feeds child reach = c.Feeds child reach := by
        funext p
        cases reach <;> simp only [Feeds, h.alike.holds_eq]
      rw [hfeeds]
      refine or_congr_right (or_congr_right (exists_congr fun p => ?_))
      refine and_congr_right fun _ => and_congr_right fun hpid => ?_
      exact offers_congr hset (hkind p) (ih p hpid)

theorem retractDown (h : Twins c c') (parent child : ItemId) (reach : Reach) :
    Agree ((retractDown parent child reach).on c) ((retractDown parent child reach).on c') := by
  cases hp : c.item? parent with
  | none =>
    rw [on_retractDown_of_none hp, on_retractDown_of_none (h.alike.item?_of_none hp)]
    exact h.agree _
  | some i =>
    obtain ⟨l, hp'⟩ := h.alike.item?_of_some hp
    cases hc : c.item? child with
    | none =>
      rw [on_retractDown_of_missing hp hc,
        on_retractDown_of_missing hp' (h.alike.item?_of_none hc)]
      exact h.agree _
    | some j =>
      obtain ⟨l', hc'⟩ := h.alike.item?_of_some hc
      obtain ⟨d, hd, hr, hspec⟩ := h.left.on_retractDown hp hc reach
      obtain ⟨d', hd', hr', hspec'⟩ := h.right.on_retractDown hp' hc' reach
      rw [hd, hd']
      refine ⟨rfl, h.regranted hr hr' ?_⟩
      -- what an item keeps depends on what its containers keep
      refine h.left.holds_induction fun id ih g => ?_
      have hwithin : c'.Within child reach id ↔ c.Within child reach id := by
        cases reach <;> simp only [Within, h.alike.holds_eq]
      have hcand : retractable { i with childEdges := l } { j with childEdges := l' } =
          retractable i j := rfl
      rw [hspec, hspec', h.alike.has_iff, hwithin, hcand, h.alike.holds_eq]
      refine and_congr_right fun _ => imp_congr_right fun _ => imp_congr_right fun _ =>
        exists_congr fun p => and_congr_right fun hpid => ih p hpid g

theorem onAdd (h : Twins c c') (p : Propagation) (parent child : ItemId) :
    Agree ((p.onAdd parent child).on c) ((p.onAdd parent child).on c') := by
  cases p with
  | null => exact h.agree _
  | inherit | share | notFromContainers => exact h.mergeDown ..

theorem onRemove (h : Twins c c') (p : Propagation) (parent child : ItemId) :
    Agree ((p.onRemove parent child).on c) ((p.onRemove parent child).on c') := by
  cases p with
  | null => exact h.agree _
  | inherit | share => exact h.retractDown ..
  | notFromContainers =>
    unfold Propagation.onRemove
    rw [Edit.on_get_bind, Edit.on_get_bind, Edit.on_liftM_bind, Edit.on_liftM_bind]
    cases hc : c.item? child with
    | none =>
      rw [item_of_none hc, item_of_none (h.alike.item?_of_none hc)]
      exact h.agree _
    | some j =>
      obtain ⟨l, hc'⟩ := h.alike.item?_of_some hc
      rw [item_of_some hc, item_of_some hc']
      show Agree ((if j.isDocument then _ else _ : Edit Unit).on c)
        ((if j.isDocument then _ else _ : Edit Unit).on c')
      split
      · exact h.retractDown ..
      · exact h.agree _

end Twins

end Cabinet

end Filing
