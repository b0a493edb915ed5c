import Filing.Cabinet.Basic
import Filing.Graph.DepthFirst

/-!
# Prospective cycles

Before an item becomes a member of a container, everything above the container is searched, as if
the new membership were there already.  Coming back to the container means that the new membership
closes a cycle.  Any other cycle, and any reference that leads nowhere, was there before.
-/

namespace Filing

/-- The verdict on a membership that is not there yet. -/
inductive CycleCheck where
  /-- With the membership there is still no cycle above the container. -/
  | acyclic
  /-- The membership closes a cycle. -/
  | wouldCycle
  /-- What is stored above the container has a cycle, or a reference that leads nowhere. -/
  | inconsistent
deriving DecidableEq, Repr, Inhabited

namespace CycleCheck

def name : CycleCheck → String
  | acyclic => "acyclic"
  | wouldCycle => "would_cycle"
  | inconsistent => "inconsistent"

end CycleCheck

namespace Cabinet

/-- The container to which an edge leads from an item that lists it. -/
def climb? (c : Cabinet) (id : ItemId) (e : EdgeId) : Option ItemId := do
  let edge ← c.edge? e
  if edge.item = id ∧ c.contains edge.container then some edge.container else none

/-- The containers of an item, unless one of its references leads nowhere. -/
def above? (c : Cabinet) (id : ItemId) : Option (List ItemId) := do
  let item ← c.item? id
  item.parentEdges.mapM (c.climb? id)

/-- The containers of an item if `child` were a member of `parent` as well. -/
def prospectiveAbove? (c : Cabinet) (parent child id : ItemId) : Option (List ItemId) :=
  (c.above? id).map fun above => if id = child then above ++ [parent] else above

/-- Whether `child` can become a member of `parent` without a cycle. -/
def checkCycle (c : Cabinet) (parent child : ItemId) : CycleCheck :=
  if parent = child then .wouldCycle
  else
    let next := c.prospectiveAbove? parent child
    match next parent with
    | none => .inconsistent
    | some above =>
      match Graph.depthFirst next [(parent, above)] (c.items.keys.erase parent) with
      | .clear => .acyclic
      | .back id => if id = parent then .wouldCycle else .inconsistent
      | .blocked _ => .inconsistent

end Cabinet

end Filing
