import Filing.Proofs.Publication

/-!
# Runs of requests

A run is given by the list of requests that are made one after the other, each of which may fail.
Whether a request is allowed may depend on what the earlier ones have left (`AllAllowed`), and the
edges that all of them make are counted (`linksAll`).

* `Request.orderly_after`: a request keeps a cabinet **sound, with all its numbers below the next
  one** (`Orderly`), and so does a run (`orderly_afterAll`).
* `Request.invariant_afterAll`: what every allowed request keeps of an orderly cabinet, **a run
  keeps**.
-/

namespace Filing

open Cabinet

/-- The cabinet is sound, and there is a number for the next edge. -/
structure Cabinet.Orderly (c : Cabinet) : Prop extends Sound c, Accounted c

theorem Cabinet.Changes.orderly {c c' : Cabinet} (h : Changes 0 c c') (ho : c.Orderly) :
    c'.Orderly := by
  have hn : c.nextEdge.toNat + 0 < 2 ^ 64 := c.nextEdge.value.toNat_lt
  obtain ⟨hacc, _⟩ := h.accounted ho.toAccounted hn
  exact ⟨h.sound ho.toSound ho.toAccounted hn, hacc.number_lt, hacc.size_eq⟩

namespace Request

variable {c : Cabinet} {r : Request}

theorem fresh_of_insert (h : ∀ item, r = operation (.insert item) → c.contains item.id = false) :
    r.Fresh c := by
  cases r with
  | operation op =>
    cases op with
    | insert item => exact h item rfl
    | _ => trivial
  | _ => trivial

/-- **A request keeps a cabinet orderly**, as long as there are numbers for new edges. -/
theorem orderly_after (h : c.Orderly) (hf : r.Fresh c)
    (hn : c.nextEdge.toNat + r.links c < 2 ^ 64) :
    (r.after c).Orderly ∧ (r.after c).nextEdge.toNat = c.nextEdge.toNat + r.links c := by
  obtain ⟨hacc, hnext⟩ := accounted_after h.toAccounted hf hn
  refine ⟨⟨?_, hacc.number_lt, hacc.size_eq⟩, hnext⟩
  rcases changes_links h.toListed hf with ⟨settings, rfl⟩ | hc
  · exact h.toSound.configure settings
  · exact hc.sound h.toSound h.toAccounted hn

/-! ## Runs -/

/-- Each request of a list is allowed when its turn comes. -/
def AllAllowed (allowed : Cabinet → Request → Prop) : List Request → Cabinet → Prop
  | [], _ => True
  | r :: rest, c => allowed c r ∧ AllAllowed allowed rest (r.after c)

/-- The number of edges that a list of requests makes. -/
def linksAll : List Request → Cabinet → Nat
  | [], _ => 0
  | r :: rest, c => r.links c + linksAll rest (r.after c)

theorem afterAll_append (l l' : List Request) (c : Cabinet) :
    afterAll (l ++ l') c = afterAll l' (afterAll l c) := List.foldl_append

theorem linksAll_append (l l' : List Request) (c : Cabinet) :
    linksAll (l ++ l') c = linksAll l c + linksAll l' (afterAll l c) := by
  induction l generalizing c with
  | nil => exact (Nat.zero_add _).symm
  | cons r rest ih =>
    rw [List.cons_append, linksAll, linksAll, ih, Nat.add_assoc]
    rfl

theorem allAllowed_append {allowed : Cabinet → Request → Prop} {l l' : List Request} :
    AllAllowed allowed (l ++ l') c ↔
      AllAllowed allowed l c ∧ AllAllowed allowed l' (afterAll l c) := by
  induction l generalizing c with
  | nil => exact iff_of_eq (true_and _).symm
  | cons r rest ih =>
    rw [List.cons_append, AllAllowed, AllAllowed, ih, and_assoc]
    rfl

theorem links_le_one (r : Request) (c : Cabinet) : r.links c ≤ 1 := by
  cases r with
  | operation op => exact op.links_le_one c
  | _ => exact Nat.zero_le 1

theorem linksAll_le_length (l : List Request) (c : Cabinet) : linksAll l c ≤ l.length := by
  induction l generalizing c with
  | nil => exact Nat.le_refl 0
  | cons r rest ih =>
    have hr := r.links_le_one c
    have hrest := ih (r.after c)
    rw [linksAll, List.length_cons]
    omega

section Run

variable {allowed : Cabinet → Request → Prop} {l : List Request}

/-- **An orderly cabinet stays orderly, and keeps what every allowed request keeps** of such a
cabinet. -/
theorem invariant_afterAll {I : Cabinet → Prop} (hfresh : ∀ {c r}, allowed c r → r.Fresh c)
    (hstep : ∀ {c r}, c.Orderly → allowed c r → c.nextEdge.toNat + r.links c < 2 ^ 64 → I c →
      I (r.after c)) (ho : c.Orderly) (h : I c)
    (hl : AllAllowed allowed l c) (hn : c.nextEdge.toNat + linksAll l c < 2 ^ 64) :
    (afterAll l c).Orderly ∧ I (afterAll l c) ∧
      (afterAll l c).nextEdge.toNat = c.nextEdge.toNat + linksAll l c := by
  induction l generalizing c with
  | nil => exact ⟨ho, h, rfl⟩
  | cons r rest ih =>
    rw [linksAll] at hn ⊢
    obtain ⟨ho', hnext⟩ := orderly_after ho (hfresh hl.1) (by omega)
    obtain ⟨ho'', h', hnext'⟩ := ih ho' (hstep ho hl.1 (by omega) h) hl.2 (by omega)
    exact ⟨ho'', h', hnext'.trans (by omega)⟩

/-- **A run keeps a cabinet orderly**, as long as there are numbers for new edges. -/
theorem orderly_afterAll (ho : c.Orderly) (hl : AllAllowed Fresh l c)
    (hn : c.nextEdge.toNat + linksAll l c < 2 ^ 64) :
    (afterAll l c).Orderly ∧ (afterAll l c).nextEdge.toNat = c.nextEdge.toNat + linksAll l c := by
  obtain ⟨ho', _, hnext⟩ :=
    invariant_afterAll (I := fun _ => True) id (fun _ _ _ _ => trivial) ho trivial hl hn
  exact ⟨ho', hnext⟩

end Run

end Request

theorem Request.linksAll_lt {settings : Settings} {epoch : Epoch} {l : List Request}
    (hn : linksAll l (.empty settings epoch) < 2 ^ 64 - 1) :
    (empty settings epoch).nextEdge.toNat + linksAll l (.empty settings epoch) < 2 ^ 64 :=
  show 1 + _ < 2 ^ 64 by omega

theorem Cabinet.orderly_empty (settings : Settings) (epoch : Epoch) :
    (empty settings epoch).Orderly where
  toSound := sound_empty settings epoch
  number_lt := (accounted_empty settings epoch).number_lt
  size_eq := rfl

/-- **Every run from an empty cabinet leaves a sound one**, as long as there are numbers for new
edges. -/
theorem Request.sound_afterAll {settings : Settings} {epoch : Epoch} {l : List Request}
    (hl : AllAllowed Fresh l (.empty settings epoch))
    (hn : linksAll l (.empty settings epoch) < 2 ^ 64 - 1) :
    (afterAll l (.empty settings epoch)).Sound :=
  (orderly_afterAll (orderly_empty settings epoch) hl (linksAll_lt hn)).1.toSound

end Filing
