import Filing.Access.Permission

/-!
# Access lists

An access list is the set of grants attached to an item.  A grant is a pair of a principal and a
permission, and two grants are the same when both parts are.  All operations are exact set
operations: the retraction of inherited grants relies on this.
-/

namespace Filing

/-- One grant. -/
structure Grant where
  /-- Who holds it. -/
  principal : Principal
  /-- What is granted. -/
  permission : Permission
deriving DecidableEq, Repr, Inhabited

namespace Grant

instance : Ord Grant := ⟨compareLex (compareOn principal) (compareOn permission)⟩

instance : Std.TransOrd Grant :=
  inferInstanceAs (Std.TransCmp (compareLex (compareOn principal) (compareOn permission)))

instance : Std.LawfulEqOrd Grant where
  eq_of_compare {a b} h := by
    have h' : compareLex (compareOn principal) (compareOn permission) a b = .eq := h
    rw [compareLex_eq_eq, compareOn, compareOn, Std.compare_eq_iff_eq, Std.compare_eq_iff_eq] at h'
    cases a
    cases b
    cases h'.1
    cases h'.2
    rfl

/-- Whether the grant publishes the item. -/
def isPublic (g : Grant) : Bool := g.principal.isAnonymous

/-- The text of a grant: principal, equals sign, permission. -/
def text (g : Grant) : String := g.principal.text ++ "=" ++ g.permission.text

instance : ToString Grant := ⟨text⟩

end Grant

/-- The set of grants on one item, listed by principal and then by permission. -/
abbrev AccessList := SortedSet Grant

namespace AccessList

/-- Whether `p` holds the permission `r`. -/
def grants (a : AccessList) (p : Principal) (r : Permission) : Bool := (⟨p, r⟩ : Grant) ∈ a

/-- The list without its public grants. -/
def withoutPublic (a : AccessList) : AccessList := a.filter fun g => !g.isPublic

/-- The public grants of the list. -/
def publicPart (a : AccessList) : AccessList := a.filter Grant.isPublic

/-- The list without the grants of the principals that satisfy `excluded`. -/
def withoutPrincipals (a : AccessList) (excluded : Principal → Bool) : AccessList :=
  a.filter fun g => !excluded g.principal

/-- Whether any grant is public. -/
def isPublished (a : AccessList) : Bool := a.toList.any Grant.isPublic

/-- The permissions that `p` holds. -/
def permissionsFor (a : AccessList) (p : Principal) : PermissionSet :=
  .ofList ((a.toList.filter fun g => g.principal = p).map (·.permission))

/-- Everyone who holds a grant. -/
def principals (a : AccessList) : SortedSet Principal := .ofList (a.toList.map (·.principal))

/-- Adds the grants of `b`, and counts those that were new. -/
def unionWith (a b : AccessList) : AccessList × Nat :=
  let u := a.union b
  (u, u.size - a.size)

/-- Removes the grants of `b`, and counts those that were there. -/
def removeAll (a b : AccessList) : AccessList × Nat :=
  let d := a.diff b
  (d, a.size - d.size)

end AccessList

end Filing
