import Filing.Cabinet.Basic
import Filing.Graph.Pruning

/-!
# Integrity

A cabinet is in order when its lists, its index and its stored edges tell the same story and the
memberships close no cycle.  `Cabinet.verify` reports the first defect: first the references, item
by item in the order of identifiers, then the ends of the edges, then the cycles.
-/

namespace Filing.Cabinet

/-- Checks the edges that an item lists, and collects them.  Each must be stored and have the item
as its `near` end, and it must not have been seen on this side. -/
def checkListed (c : Cabinet) (near : Edge → ItemId) (missing foreign : ItemId → EdgeId → Defect)
    (repeated : EdgeId → Defect) (id : ItemId) (seen listed : List EdgeId) :
    Except Defect (List EdgeId) :=
  listed.foldlM (fun seen e =>
    match c.edge? e with
    | none => .error (missing id e)
    | some edge =>
      if near edge ≠ id then .error (foreign id e)
      else if e ∈ seen then .error (repeated e)
      else .ok (e :: seen)) seen

/-- Checks the edges that an item lists as its memberships. -/
def checkParentEdges (c : Cabinet) : ItemId → List EdgeId → List EdgeId →
    Except Defect (List EdgeId) :=
  c.checkListed Edge.item .missingParentEdge .foreignParentEdge .repeatedOnItemSide

/-- Checks the edges that a container lists as its members. -/
def checkChildEdges (c : Cabinet) : ItemId → List EdgeId → List EdgeId →
    Except Defect (List EdgeId) :=
  c.checkListed Edge.container .missingChildEdge .foreignChildEdge .repeatedOnContainerSide

/-- Checks the deferred edges, and collects them. -/
def checkDeferred (c : Cabinet) (seen : List EdgeId) : Except Defect (List EdgeId) :=
  c.deferred.foldlM (fun seen e =>
    if !c.edges.contains e then .error (.missingDeferred e)
    else if e ∈ seen then .error (.repeatedOnContainerSide e)
    else .ok (e :: seen)) seen

/-- Checks what all items list, and collects the edges seen from either side. -/
def checkItems (c : Cabinet) : Except Defect (List EdgeId × List EdgeId) :=
  c.items.entries.foldlM (fun (onItem, onContainer) (id, item) => do
    let onItem ← c.checkParentEdges id onItem item.parentEdges
    let onContainer ← c.checkChildEdges id onContainer item.childEdges
    return (onItem, onContainer)) ([], [])

/-- Checks that lists, index and stored edges agree. -/
def verifyReferences (c : Cabinet) : Except Defect Unit := do
  if c.index.size ≠ c.edges.size then
    throw (.sharedPairs (c.edges.size.toUInt64 - c.index.size.toUInt64))
  let (onItem, onContainer) ← c.checkItems
  let onContainer ← c.checkDeferred onContainer
  c.edges.keys.forM fun e =>
    if e ∉ onItem then .error (.unlistedByItem e)
    else if e ∉ onContainer then .error (.unlistedByContainer e)
    else .ok ()

/-- Checks that both ends of every edge are stored. -/
def verifyEnds (c : Cabinet) : Except Defect Unit :=
  c.edges.values.forM fun e =>
    if c.contains e.item && c.contains e.container then .ok () else .error (.missingEnd e.id)

/-- The stored edges as arcs from containers to members. -/
def arcs (c : Cabinet) : List (ItemId × ItemId) := c.edges.values.map fun e => (e.container, e.item)

/-- Reports the first defect of the cabinet. -/
def verify (c : Cabinet) : Except Defect Unit := do
  c.verifyReferences
  c.verifyEnds
  if Graph.isAcyclic c.arcs then .ok () else .error .cyclic

end Filing.Cabinet
