import Filing.Cabinet.Basic

/-!
# Linking

Edges come and go in two ways only: `Cabinet.link` enters a new edge on both of its sides and in the
index, and `Cabinet.unlink?` takes an edge out of all three places or leaves the cabinet as it is.
Neither checks whether the membership makes sense.
-/

namespace Filing

/-- How a request for an edge was met. -/
inductive Linked where
  /-- By a new edge. -/
  | created (edge : EdgeId)
  /-- By the edge that was there. -/
  | existing (edge : EdgeId)
deriving DecidableEq, Repr

namespace Cabinet

/-- The cabinet with the next edge entered for a membership. -/
def withEdge (c : Cabinet) (key : Membership) (owner : Principal) (defer : Bool) (now : Timestamp) :
    Cabinet :=
  let id := c.nextEdge
  let listed := c.modifyItem key.item fun i => { i with parentEdges := i.parentEdges ++ [id] }
  let listed :=
    if defer then { listed with deferred := listed.deferred ++ [id] }
    else listed.modifyItem key.container fun i => { i with childEdges := i.childEdges ++ [id] }
  { listed with
    edges := c.edges.insert id (.make id key owner now)
    index := c.index.insert key id
    nextEdge := id.next }.bump

/-- Makes an item a member of a container, unless it is one. -/
def link (c : Cabinet) (key : Membership) (owner : Principal) (defer : Bool) (now : Timestamp) :
    Except Failure (Linked × Cabinet) :=
  match c.index.find? key with
  | some e => .ok (.existing e, c)
  | none =>
    if !c.contains key.item then .error (.itemNotFound key.item)
    else if !c.contains key.container then .error (.itemNotFound key.container)
    else .ok (.created c.nextEdge, c.withEdge key owner defer now)

/-- Takes an edge off the side of its container: from the list of the container, or else from the
deferred edges. -/
def unlist? (c : Cabinet) (container : ItemId) (e : EdgeId) : Option Cabinet :=
  if ((c.item? container).any fun i => e ∈ i.childEdges) then
    some (c.modifyItem container fun i => { i with childEdges := i.childEdges.erase e })
  else if e ∈ c.deferred then
    some { c with deferred := c.deferred.erase e }
  else
    none

/-- Ends a membership; fails if the edge is missing from the index or from one of its sides. -/
def unlink? (c : Cabinet) (key : Membership) : Option Cabinet := do
  let e ← c.index.find? key
  let item ← c.item? key.item
  if e ∈ item.parentEdges then
    let listed ← c.unlist? key.container e
    let listed := listed.modifyItem key.item fun i =>
      { i with parentEdges := i.parentEdges.erase e }
    some { listed with edges := c.edges.erase e, index := c.index.erase key }.bump
  else
    none

/-- Enters deferred edges in the lists of their containers, and counts them.  An edge that is not
stored, or whose container is not, is forgotten. -/
def flush : List EdgeId → Cabinet → Cabinet × Nat
  | [], c => (c, 0)
  | e :: rest, c =>
    match (c.edge? e).map (·.container) with
    | some id =>
      if c.contains id then
        let c := c.modifyItem id fun i => { i with childEdges := i.childEdges ++ [e] }
        let (c, n) := flush rest c
        (c, n + 1)
      else
        flush rest c
    | none => flush rest c

/-- Enters all deferred edges in the lists of their containers. -/
def flushDeferred (c : Cabinet) : Cabinet × Nat := flush c.deferred { c with deferred := [] }

end Cabinet

end Filing
