import Filing.Access.AccessList
import Filing.Proofs.Sorted.Set
import Filing.Proofs.Text.Bytes

/-!
# The laws of access lists

An access list is a set of grants, and its operations are those of sets.  What is retracted from an
item is exactly what it has in common with another, so nothing here may be approximate.

* `Grant.compare_eq_lt_iff`: grants are listed by principal and then by permission: users before
  groups before roles before the public, and what is of one kind by its bytes (`Precedes`).
* `AccessList.mem_permissionsFor`: a principal holds what the grants of the list say; so it holds
  of a union, an intersection or a difference what it should.
* `AccessList.setLaws`: **the laws together**, with the counts that are reported.
-/

namespace Filing

/-! ## The order of grants -/

theorem compare_text_eq_lt_iff {s t : String} :
    compare s t = .lt ↔ Text.bytes s < Text.bytes t := by
  rw [compare_lt_iff_lt, Text.lt_iff_bytes_lt]

theorem compareLex_on_eq_lt_iff {α κ κ' : Type} [Ord κ] [Ord κ'] [Std.LawfulEqOrd κ]
    (key : α → κ) (key' : α → κ') {a b : α} :
    compareLex (compareOn key) (compareOn key') a b = .lt ↔
      compare (key a) (key b) = .lt ∨ key a = key b ∧ compare (key' a) (key' b) = .lt := by
  rw [compareLex, Ordering.then_eq_lt, compareOn, compareOn, Std.compare_eq_iff_eq]

/-- Users come first, then groups, roles and the public, and principals of one kind go by the bytes
of their names. -/
def Principal.Precedes (p q : Principal) : Prop :=
  p.rank < q.rank ∨ p.rank = q.rank ∧ Text.bytes p.name < Text.bytes q.name

theorem Principal.compare_eq_lt_iff {p q : Principal} : compare p q = .lt ↔ p.Precedes q := by
  have h : compare p q = .lt ↔ _ := compareLex_on_eq_lt_iff rank name
  rw [h, compare_lt_iff_lt, compare_text_eq_lt_iff, Precedes]

/-- Grants go by their principals, and those of one principal by the bytes of their permissions. -/
def Grant.Precedes (g h : Grant) : Prop :=
  g.principal.Precedes h.principal ∨
    g.principal = h.principal ∧ Text.bytes g.permission.text < Text.bytes h.permission.text

theorem Grant.compare_eq_lt_iff {g h : Grant} : compare g h = .lt ↔ g.Precedes h := by
  have hlex : compare g h = .lt ↔ _ := compareLex_on_eq_lt_iff principal permission
  have hperm : compare g.permission h.permission = .lt ↔ _ :=
    compare_text_eq_lt_iff (s := g.permission.text) (t := h.permission.text)
  rw [hlex, hperm, Principal.compare_eq_lt_iff, Precedes]

namespace AccessList

variable {a b : AccessList} {p : Principal} {r : Permission}

/-- **Grants are listed in their order, and none is listed twice.** -/
theorem pairwise_precedes (a : AccessList) : a.toList.Pairwise Grant.Precedes :=
  a.ascending.imp Grant.compare_eq_lt_iff.mp

/-! ## What a principal holds -/

theorem grants_iff : grants a p r = true ↔ (⟨p, r⟩ : Grant) ∈ a := decide_eq_true_iff

theorem mem_permissionsFor : r ∈ permissionsFor a p ↔ (⟨p, r⟩ : Grant) ∈ a := by
  rw [permissionsFor, SortedSet.mem_ofList, List.mem_map]
  constructor
  · rintro ⟨⟨q, s⟩, hg, rfl⟩
    obtain ⟨hm, hp⟩ := List.mem_filter.mp hg
    rwa [← of_decide_eq_true hp]
  · intro hm
    exact ⟨⟨p, r⟩, List.mem_filter.mpr ⟨hm, decide_eq_true rfl⟩, rfl⟩

/-! ## The laws -/

/-- **What is true of two access lists as of any two sets**, of the counts that are reported, and of
the way in which grants are listed. -/
structure SetLaws (a b : AccessList) : Prop where
  mem_union : ∀ g, g ∈ a.union b ↔ g ∈ a ∨ g ∈ b
  mem_inter : ∀ g, g ∈ a.inter b ↔ g ∈ a ∧ g ∈ b
  mem_diff : ∀ g, g ∈ a.diff b ↔ g ∈ a ∧ g ∉ b
  mem_withoutPublic : ∀ g, g ∈ withoutPublic a ↔ g ∈ a ∧ g.principal ≠ .anonymous
  mem_withoutPrincipals : ∀ excluded g,
    g ∈ withoutPrincipals a excluded ↔ g ∈ a ∧ excluded g.principal = false
  /-- The count is of the grants of `b` that are not in `a`. -/
  unionWith : unionWith a b = (a.union b, b.toList.countP (· ∉ a))
  /-- The count is of the grants of `a` that are in `b`. -/
  removeAll : removeAll a b = (a.diff b, a.toList.countP (· ∈ b))
  removeAll_inter : (AccessList.removeAll b (a.inter b)).1 = b.diff a
  permissionsFor_union : ∀ p,
    permissionsFor (a.union b) p = (permissionsFor a p).union (permissionsFor b p)
  permissionsFor_inter : ∀ p,
    permissionsFor (a.inter b) p = (permissionsFor a p).inter (permissionsFor b p)
  permissionsFor_diff : ∀ p,
    permissionsFor (a.diff b) p = (permissionsFor a p).diff (permissionsFor b p)
  mem_permissionsFor : ∀ p r, r ∈ permissionsFor a p ↔ grants a p r = true
  /-- The same grants make the same list. -/
  ext : (∀ g, g ∈ a ↔ g ∈ b) → a = b
  /-- It does not matter in which order and how often grants are put in. -/
  insert : ∀ l l' : List Grant, (∀ g, g ∈ l ↔ g ∈ l') →
    l.foldl SortedSet.insert a = l'.foldl SortedSet.insert a
  listed : a.toList.Pairwise Grant.Precedes

/-- **Access lists are sets**, and are listed in one way. -/
theorem setLaws (a b : AccessList) : SetLaws a b where
  mem_union _ := SortedSet.mem_union
  mem_inter _ := SortedSet.mem_inter
  mem_diff _ := SortedSet.mem_diff
  mem_withoutPublic g := by
    have hpublic : g.isPublic = false ↔ g.principal ≠ .anonymous := by
      rw [Grant.isPublic]
      cases g.principal <;> simp [Principal.isAnonymous]
    rw [withoutPublic, SortedSet.mem_filter, Bool.not_eq_true', hpublic]
  mem_withoutPrincipals excluded g := by
    rw [withoutPrincipals, SortedSet.mem_filter, Bool.not_eq_true']
  unionWith := by
    rw [unionWith, SortedSet.size_union]
    exact congrArg (a.union b, ·) (Nat.add_sub_cancel_left ..)
  removeAll := by
    rw [removeAll, ← SortedSet.size_diff a b]
    exact congrArg (a.diff b, ·) (Nat.add_sub_cancel_left ..)
  removeAll_inter := SortedSet.ext fun g => by
    rw [removeAll, SortedSet.mem_diff, SortedSet.mem_diff, SortedSet.mem_inter]
    tauto
  permissionsFor_union p := SortedSet.ext fun r => by
    simp only [AccessList.mem_permissionsFor, SortedSet.mem_union]
  permissionsFor_inter p := SortedSet.ext fun r => by
    simp only [AccessList.mem_permissionsFor, SortedSet.mem_inter]
  permissionsFor_diff p := SortedSet.ext fun r => by
    simp only [AccessList.mem_permissionsFor, SortedSet.mem_diff]
  mem_permissionsFor p r := AccessList.mem_permissionsFor.trans grants_iff.symm
  ext := SortedSet.ext
  insert l l' h := SortedSet.ext fun g => by
    have hall : ∀ l : List Grant, g ∈ l.foldl SortedSet.insert a ↔ g ∈ a ∨ g ∈ l := fun l =>
      SortedSet.mem_insertAll
    rw [hall, hall, h]
  listed := pairwise_precedes a

end AccessList

end Filing
