import Filing.Access.Principal
import Filing.Sorted.Set

/-!
# Permissions

A permission is an opaque word: it is compared with other permissions and never interpreted.
-/

namespace Filing

/-- An opaque right, known by its text alone. -/
structure Permission where
  text : String
deriving DecidableEq, Repr, Inhabited

namespace Permission

instance : Ord Permission := ⟨compareOn text⟩

instance : Std.TransOrd Permission := inferInstanceAs (Std.TransCmp (compareOn text))

instance : Std.LawfulEqOrd Permission where
  eq_of_compare {p q} h := by
    have h' : compareOn text p q = .eq := h
    rw [compareOn, Std.compare_eq_iff_eq] at h'
    cases p
    cases q
    cases h'
    rfl

instance : ToString Permission := ⟨text⟩

/-- The permission of a text that is not empty. -/
def ofText (s : String) : Except AccessError Permission :=
  if s.isEmpty then .error .emptyPermission else .ok ⟨s⟩

end Permission

/-- A set of permissions, listed in the order of their texts. -/
abbrev PermissionSet := SortedSet Permission

end Filing
