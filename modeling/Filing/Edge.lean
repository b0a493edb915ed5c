import Filing.Access.Principal
import Filing.Item.Id
import Filing.Time.Timestamp

/-!
# Membership edges

An edge says that an item is a member of a container.  Edges are numbered in the order in which they
are made, and a pair of an item and a container has at most one.  An edge has a deletion mark of its
own, so an item can be deleted in one container and visible in another.
-/

namespace Filing

/-- The number of an edge, a word of 64 bits. -/
structure EdgeId where
  value : UInt64
deriving DecidableEq, Inhabited

namespace EdgeId

instance : Ord EdgeId := ⟨compareOn value⟩

instance : Std.TransOrd EdgeId := inferInstanceAs (Std.TransCmp (compareOn value))

instance : Std.LawfulEqOrd EdgeId where
  eq_of_compare {a b} h := by
    have h' : compareOn value a b = .eq := h
    rw [compareOn, Std.compare_eq_iff_eq] at h'
    cases a
    cases b
    cases h'
    rfl

def toNat (e : EdgeId) : Nat := e.value.toNat

/-- The number after this one; after the last word comes zero. -/
def next (e : EdgeId) : EdgeId := ⟨e.value + 1⟩

/-- The name of an edge. -/
def text (e : EdgeId) : String := "edge-" ++ String.ofList (Decimal.write e.toNat)

instance : ToString EdgeId := ⟨text⟩

instance : Repr EdgeId := ⟨fun e _ => repr e.text⟩

end EdgeId

/-- The pair that identifies an edge: a member and the container that holds it. -/
structure Membership where
  item : ItemId
  container : ItemId
deriving DecidableEq, Repr, Inhabited

namespace Membership

instance : Ord Membership := ⟨compareLex (compareOn item) (compareOn container)⟩

instance : Std.TransOrd Membership :=
  inferInstanceAs (Std.TransCmp (compareLex (compareOn item) (compareOn container)))

instance : Std.LawfulEqOrd Membership where
  eq_of_compare {a b} h := by
    have h' : compareLex (compareOn item) (compareOn container) a b = .eq := h
    rw [compareLex_eq_eq, compareOn, compareOn, Std.compare_eq_iff_eq, Std.compare_eq_iff_eq] at h'
    cases a
    cases b
    cases h'.1
    cases h'.2
    rfl

end Membership

/-- One membership of an item in a container. -/
structure Edge where
  id : EdgeId
  /-- The member. -/
  item : ItemId
  /-- The container that holds it. -/
  container : ItemId
  /-- Who made the membership. -/
  owner : Principal
  createdAt : Timestamp
  /-- Whether the item is deleted in this container. -/
  deleted : Bool
  /-- When the item was deleted in this container. -/
  deletedAt : Option Timestamp
deriving DecidableEq, Repr

namespace Edge

/-- The pair that identifies the edge. -/
def key (e : Edge) : Membership := ⟨e.item, e.container⟩

/-- A new membership, not deleted. -/
def make (id : EdgeId) (key : Membership) (owner : Principal) (now : Timestamp) : Edge :=
  { id, item := key.item, container := key.container, owner, createdAt := now
    deleted := false, deletedAt := none }

/-- Sets or removes the deletion mark; the time of deletion comes and goes with it. -/
def mark (e : Edge) (deleted : Bool) (now : Timestamp) : Edge :=
  { e with deleted, deletedAt := if deleted then some now else none }

end Edge

end Filing
