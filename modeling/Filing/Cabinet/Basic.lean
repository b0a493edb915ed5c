import Filing.Failure
import Filing.Sorted.Map

/-!
# Cabinets

A cabinet holds items and the edges that make some of them members of others.  An item may be a
member of several containers, so the hierarchy is a directed graph, and it is meant to have no
cycle.

An edge is stored once and referred to from three places: from the list of its item, from the list
of its container (or, for a while, from the list of deferred edges), and from the index of
memberships.  This module has the type and what can be asked of it; nothing here assumes that the
three places agree.
-/

namespace Filing

/-- Marks one instance of a cabinet; every new, loaded or copied cabinet gets a mark of its own. -/
abbrev Epoch := Nat

/-- Items, and the memberships between them. -/
structure Cabinet where
  settings : Settings
  epoch : Epoch
  items : SortedMap ItemId Item
  edges : SortedMap EdgeId Edge
  /-- The edge of each membership. -/
  index : SortedMap Membership EdgeId
  /-- Edges that their containers do not list yet, oldest first. -/
  deferred : List EdgeId
  /-- The number that the next edge gets. -/
  nextEdge : EdgeId
  /-- A count of the changes of structure, modulo `2 ^ 64`. -/
  generation : UInt64
deriving DecidableEq

namespace Cabinet

/-- A cabinet without items. -/
def empty (settings : Settings) (epoch : Epoch) : Cabinet :=
  { settings, epoch, items := ∅, edges := ∅, index := ∅, deferred := [], nextEdge := ⟨1⟩
    generation := 0 }

/-- Counts a change of structure. -/
def bump (c : Cabinet) : Cabinet := { c with generation := c.generation + 1 }

/-- Applies `f` to a stored item. -/
def modifyItem (c : Cabinet) (id : ItemId) (f : Item → Item) : Cabinet :=
  { c with items := c.items.modify id f }

/-- Stores an item without edges, in place of one with the same identifier. -/
def insertItem (c : Cabinet) (item : Item) : Cabinet :=
  { c with items := c.items.insert item.id item.detached }.bump

/-- Gives an item another access list; this is no change of structure. -/
def setAccess (c : Cabinet) (id : ItemId) (a : AccessList) : Cabinet :=
  c.modifyItem id fun i => { i with access := a }

/-! ## Items -/

def item? (c : Cabinet) (id : ItemId) : Option Item := c.items.find? id

def contains (c : Cabinet) (id : ItemId) : Bool := c.items.contains id

/-- The item with a given identifier. -/
def item (c : Cabinet) (id : ItemId) : Except Failure Item :=
  match c.item? id with
  | some i => .ok i
  | none => .error (.itemNotFound id)

/-- The container with a given identifier. -/
def container (c : Cabinet) (id : ItemId) : Except Failure Item := do
  let i ← c.item id
  if i.isContainer then .ok i else .error (.notContainer id)

/-! ## Memberships -/

def edge? (c : Cabinet) (e : EdgeId) : Option Edge := c.edges.find? e

/-- The edge of a membership. -/
def edgeBetween? (c : Cabinet) (key : Membership) : Option Edge :=
  (c.index.find? key).bind c.edge?

/-- Whether the index knows a membership. -/
def isMember (c : Cabinet) (key : Membership) : Bool := c.index.contains key

/-- The stored edges that place an item in containers, oldest first. -/
def parentEdges (c : Cabinet) (id : ItemId) : List Edge :=
  match c.item? id with
  | some i => i.parentEdges.filterMap c.edge?
  | none => []

/-- The containers of an item, in the order of its edges. -/
def parents (c : Cabinet) (id : ItemId) : List ItemId := (c.parentEdges id).map (·.container)

/-- The container of an item that has exactly one. -/
def singleParent? (c : Cabinet) (id : ItemId) : Option ItemId :=
  match c.parentEdges id with
  | [e] => some e.container
  | _ => none

/-- The container into which its owner put an item. -/
def ownerParent? (c : Cabinet) (id : ItemId) : Option ItemId := do
  let i ← c.item? id
  let e ← (c.parentEdges id).find? fun e => e.owner = i.owner
  some e.container

/-- The stored edges of the members of a container: those it lists, then those that are deferred. -/
def childEdges (c : Cabinet) (id : ItemId) : List Edge :=
  match c.item? id with
  | some i =>
    i.childEdges.filterMap c.edge? ++
      (c.deferred.filterMap c.edge?).filter fun e => e.container = id
  | none => []

/-- The members of a container, deferred ones included. -/
def children (c : Cabinet) (id : ItemId) : List ItemId := (c.childEdges id).map (·.item)

/-- The members that are deleted neither in the container nor as items. -/
def visibleChildren (c : Cabinet) (id : ItemId) : List ItemId :=
  ((c.childEdges id).filter fun e => !e.deleted && (c.item? e.item).any fun i => !i.deleted).map
    (·.item)

/-- The number of grants on all items. -/
def grantCount (c : Cabinet) : Nat := c.items.values.foldl (fun n i => n + i.access.size) 0

end Cabinet

/-- A change of a cabinet that may fail.  What was changed before a failure stays changed. -/
abbrev Edit := ExceptT Failure (StateM Cabinet)

end Filing
