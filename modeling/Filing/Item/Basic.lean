import Filing.Access.AccessList
import Filing.Edge
import Filing.Item.Kind

/-!
# Items

An item is a document or a container.  It carries its own access list, its deletion mark, and the
numbers of the edges that touch it: those that place it in containers and, for a container, those of
its members.
-/

namespace Filing

/-- A document or a container. -/
structure Item where
  id : ItemId
  name : String
  owner : Principal
  kind : ItemKind
  /-- Whether the item is deleted wherever it is a member. -/
  deleted : Bool
  access : AccessList
  createdAt : Timestamp
  /-- The edges that place the item in containers, oldest first. -/
  parentEdges : List EdgeId
  /-- The edges of the members, in the order in which they were listed. -/
  childEdges : List EdgeId
deriving DecidableEq

namespace Item

instance : Repr Item := ⟨fun i _ => repr i.id⟩

def isContainer (i : Item) : Bool := i.kind.isContainer

def isDocument (i : Item) : Bool := !i.kind.isContainer

def isNotebook (i : Item) : Bool := i.kind.isContainerThat ContainerKind.isNotebook

def isShared (i : Item) : Bool := i.kind.isContainerThat ContainerKind.isShared

/-- Whether the item is the top of a sharing area. -/
def isSharingRoot (i : Item) : Bool := i.kind.isContainerThat ContainerKind.isSharingRoot

/-- The item without any edges. -/
def detached (i : Item) : Item := { i with parentEdges := [], childEdges := [] }

/-- Gives a container another kind; a document stays a document. -/
def withContainerKind (i : Item) (k : ContainerKind) : Item :=
  if i.isContainer then { i with kind := .container k } else i

end Item

end Filing
