/-!
# Ascending lists

A list is ascending when the keys of its elements are in strictly ascending order.  A strict order
leaves no choice: an ascending list is determined by its elements (`Ascending.eq_of_mem_iff`).  This
is why the sets and maps of this library, which are ascending lists, are equal as soon as they hold
the same things.

* `mem_place_iff`: `place` adds an element and drops the one that had its key.
* `Ascending.place`, `Ascending.filter`, `Ascending.map`: what keeps a list ascending.
-/

namespace Filing.Sorted

variable {ε κ : Type} [Ord κ] {key : ε → κ}

/-- The keys are in strictly ascending order, so none is repeated. -/
def Ascending (key : ε → κ) (l : List ε) : Prop :=
  l.Pairwise fun a b => compare (key a) (key b) = .lt

/-- Puts an element at its place, over an element with the same key. -/
def place (key : ε → κ) (e : ε) : List ε → List ε
  | [] => [e]
  | x :: rest =>
    match compare (key e) (key x) with
    | .lt => e :: x :: rest
    | .eq => e :: rest
    | .gt => x :: place key e rest

theorem Ascending.nil : Ascending key [] := List.Pairwise.nil

theorem Ascending.filter {l : List ε} (h : Ascending key l) (p : ε → Bool) :
    Ascending key (l.filter p) := h.sublist List.filter_sublist

theorem Ascending.map {l : List ε} (h : Ascending key l) (f : ε → ε) (hf : ∀ e, key (f e) = key e) :
    Ascending key (l.map f) :=
  List.pairwise_map.mpr (h.imp fun {a b} hab => by rw [hf, hf]; exact hab)

variable [Std.TransOrd κ] [Std.LawfulEqOrd κ]

omit [Std.LawfulEqOrd κ] in
theorem not_lt_self (k : κ) : ¬compare k k = .lt := by simp

omit [Std.TransOrd κ] [Std.LawfulEqOrd κ] in
theorem mem_of_mem_place {e x : ε} :
    ∀ {l : List ε}, x ∈ place key e l → x = e ∨ x ∈ l
  | [], h => by simpa [place] using h
  | y :: rest, h => by
    have ih := @mem_of_mem_place e x rest
    simp only [place] at h
    split at h <;> grind

theorem Ascending.place {l : List ε} (h : Ascending key l) (e : ε) :
    Ascending key (place key e l) := by
  induction l with
  | nil => exact List.pairwise_singleton _ _
  | cons x rest ih =>
    rw [Ascending, List.pairwise_cons] at h
    simp only [Sorted.place]
    split
    · next hlt =>
      refine List.pairwise_cons.mpr ⟨fun b hb => ?_, List.pairwise_cons.mpr h⟩
      rcases List.mem_cons.mp hb with rfl | hb
      · exact hlt
      · exact Std.TransCmp.lt_trans hlt (h.1 b hb)
    · next heq =>
      rw [Std.compare_eq_iff_eq] at heq
      exact List.pairwise_cons.mpr ⟨fun b hb => heq ▸ h.1 b hb, h.2⟩
    · next hgt =>
      refine List.pairwise_cons.mpr ⟨fun b hb => ?_, ih h.2⟩
      rcases mem_of_mem_place hb with rfl | hb
      · exact Std.OrientedCmp.lt_of_gt hgt
      · exact h.1 b hb

/-- **Placing** adds an element and drops the one that had its key. -/
theorem mem_place_iff {l : List ε} (h : Ascending key l) {e x : ε} :
    x ∈ place key e l ↔ x = e ∨ x ∈ l ∧ key x ≠ key e := by
  induction l with
  | nil => simp [place]
  | cons y rest ih =>
    rw [Ascending, List.pairwise_cons] at h
    have hne : ∀ b ∈ rest, key b ≠ key y := fun b hb heq => by
      have := h.1 b hb
      rw [heq] at this
      exact not_lt_self _ this
    simp only [place]
    split
    · next hlt =>
      have hy : key y ≠ key e := fun heq => by
        rw [heq] at hlt
        exact not_lt_self _ hlt
      have hr : ∀ b ∈ rest, key b ≠ key e := fun b hb heq => by
        have := Std.TransCmp.lt_trans hlt (h.1 b hb)
        rw [heq] at this
        exact not_lt_self _ this
      grind
    · next heq =>
      rw [Std.compare_eq_iff_eq] at heq
      grind
    · next hgt =>
      have hy : key y ≠ key e := fun heq => by
        rw [heq] at hgt
        simp at hgt
      have := ih h.2
      grind

omit [Std.LawfulEqOrd κ] in
/-- **An ascending list is determined by its elements.** -/
theorem Ascending.eq_of_mem_iff : ∀ {l l' : List ε}, Ascending key l → Ascending key l' →
    (∀ e, e ∈ l ↔ e ∈ l') → l = l'
  | [], [], _, _, _ => rfl
  | [], e :: _, _, _, h => by simpa using (h e).mpr List.mem_cons_self
  | e :: _, [], _, _, h => by simpa using (h e).mp List.mem_cons_self
  | e :: l, e' :: l', hl, hl', h => by
    rw [Ascending, List.pairwise_cons] at hl hl'
    have heq : e = e' := by
      rcases List.mem_cons.mp ((h e).mp List.mem_cons_self) with rfl | h1
      · rfl
      rcases List.mem_cons.mp ((h e').mpr List.mem_cons_self) with rfl | h2
      · rfl
      exact absurd (Std.TransCmp.lt_trans (hl.1 _ h2) (hl'.1 _ h1)) (not_lt_self _)
    subst heq
    have hn : e ∉ l := fun hm => not_lt_self _ (hl.1 e hm)
    have hn' : e ∉ l' := fun hm => not_lt_self _ (hl'.1 e hm)
    rw [Ascending.eq_of_mem_iff hl.2 hl'.2 fun x => ?_]
    have := h x
    grind

omit [Std.LawfulEqOrd κ] in
theorem Ascending.eq_of_key_eq {l : List ε} (h : Ascending key l) {a b : ε} (ha : a ∈ l)
    (hb : b ∈ l)
    (hk : key a = key b) : a = b := by
  induction l with
  | nil => cases ha
  | cons x rest ih =>
    rw [Ascending, List.pairwise_cons] at h
    rcases List.mem_cons.mp ha with rfl | ha' <;> rcases List.mem_cons.mp hb with rfl | hb'
    · rfl
    · exact absurd (hk ▸ h.1 b hb') (not_lt_self _)
    · exact absurd (hk.symm ▸ h.1 a ha') (not_lt_self _)
    · exact ih h.2 ha' hb'

end Filing.Sorted
