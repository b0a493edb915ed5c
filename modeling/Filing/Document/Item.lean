import Filing.Document.Access
import Filing.Path

/-!
# Written items and edges

Items and edges are records.  Identifiers and instants are strings, numbers of edges are numbers,
and an empty list of members is left out.
-/

namespace Filing

namespace ItemId

def toJson (id : ItemId) : Json := .ofString id.text

def ofJson? (v : Json) : Option ItemId := v.text?.bind parse?

end ItemId

namespace EdgeId

def toJson (e : EdgeId) : Json := .ofNat e.toNat

def ofJson? (v : Json) : Option EdgeId := v.uint64?.map EdgeId.mk

/-- The numbers of edges in a list. -/
def listOfJson? (v : Json) : Option (List EdgeId) := v.array?.bind (·.mapM ofJson?)

def listToJson (l : List EdgeId) : Json := .array (l.map toJson)

end EdgeId

namespace Timestamp

def toJson (t : Timestamp) : Json := .ofString t.text

def ofJson? (v : Json) : Option Timestamp := v.text?.bind parse?

end Timestamp

namespace ContainerKind

def toJson (k : ContainerKind) : Json := .ofString k.name

/-- Reads a kind.  Where the value was read before its tag, an empty object counts as null. -/
def ofJson? (v : Json) (early : Bool) : Option ContainerKind := (v.word early).bind ofName?

end ContainerKind

namespace ItemKind

def toJson : ItemKind → Json
  | document => .ofMembers [("type", .ofString "document")]
  | container k => .ofMembers [("type", .ofString "container"), ("kind", k.toJson)]

def ofJson? (v : Json) : Option ItemKind := do
  let t ← v.tagged? "type" "kind"
  match t.tag, t.content with
  | "document", none => some document
  | "document", some .null => some document
  | "container", some c => (ContainerKind.ofJson? c t.early).map container
  | _, _ => none

end ItemKind

namespace Item

def fields : List String :=
  ["id", "name", "owner", "kind", "deleted", "acl", "created_at", "parent_edges", "child_edges"]

def toJson (i : Item) : Json :=
  .ofMembers <|
    [("id", i.id.toJson), ("name", .ofString i.name), ("owner", i.owner.toJson),
      ("kind", i.kind.toJson), ("deleted", .bool i.deleted), ("acl", AccessList.toJson i.access),
      ("created_at", i.createdAt.toJson), ("parent_edges", EdgeId.listToJson i.parentEdges)] ++
    if i.childEdges.isEmpty then [] else [("child_edges", EdgeId.listToJson i.childEdges)]

def ofJson? (v : Json) : Option Item := do
  let r ← v.record? fields
  let id ← r.required "id" ItemId.ofJson?
  let name ← r.required "name" Json.text?
  let owner ← r.required "owner" Principal.ofJson?
  let kind ← r.required "kind" ItemKind.ofJson?
  let deleted ← r.required "deleted" Json.bool?
  let access ← r.required "acl" AccessList.ofJson?
  let createdAt ← r.required "created_at" Timestamp.ofJson?
  let parentEdges ← r.required "parent_edges" EdgeId.listOfJson?
  let childEdges ← r.withDefault "child_edges" [] EdgeId.listOfJson?
  return { id, name, owner, kind, deleted, access, createdAt, parentEdges, childEdges }

end Item

namespace Edge

def fields : List String :=
  ["id", "item", "container", "owner", "created_at", "deleted", "deleted_at"]

def toJson (e : Edge) : Json :=
  .ofMembers
    [("id", e.id.toJson), ("item", e.item.toJson), ("container", e.container.toJson),
      ("owner", e.owner.toJson), ("created_at", e.createdAt.toJson), ("deleted", .bool e.deleted),
      ("deleted_at", (e.deletedAt.map Timestamp.toJson).getD .null)]

def ofJson? (v : Json) : Option Edge := do
  let r ← v.record? fields
  let id ← r.required "id" EdgeId.ofJson?
  let item ← r.required "item" ItemId.ofJson?
  let container ← r.required "container" ItemId.ofJson?
  let owner ← r.required "owner" Principal.ofJson?
  let createdAt ← r.required "created_at" Timestamp.ofJson?
  let deleted ← r.required "deleted" Json.bool?
  let deletedAt ← r.nullable "deleted_at" Timestamp.ofJson?
  return { id, item, container, owner, createdAt, deleted, deletedAt }

end Edge

namespace ItemPath

def toJson (p : ItemPath) : Json := .array (p.nodes.map ItemId.toJson)

def ofJson? (v : Json) : Option ItemPath := do
  let elements ← v.array?
  return ⟨← elements.mapM ItemId.ofJson?⟩

end ItemPath

end Filing
