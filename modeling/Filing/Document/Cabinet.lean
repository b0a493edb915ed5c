import Filing.Cabinet.Integrity
import Filing.Document.Item
import Filing.Json.Reader
import Filing.Json.Writer

/-!
# Written cabinets

A cabinet is written as a record of its items by identifier, its edges by number, the deferred
edges, and the number of the next edge.  The index is not written: it is made anew from the edges.
Neither are the settings, and where these say so, what was read is checked.

A key of an object of items is an identifier in any of its forms, and one of an object of edges is a
number in plain digits, without any escape.  Of a repeated key the last value counts.  Keys are not
compared with what they lead to.
-/

namespace Filing.Cabinet

def fields : List String := ["items", "edges", "deferred", "next_edge"]

def toJson (c : Cabinet) : Json :=
  .ofMembers
    [("items", .ofMembers (c.items.entries.map fun e => (e.1.text, e.2.toJson))),
      ("edges", .object (c.edges.entries.map fun e => (⟨Decimal.write e.1.toNat⟩, e.2.toJson))),
      ("deferred", EdgeId.listToJson c.deferred),
      ("next_edge", c.nextEdge.toJson)]

/-- The document of a cabinet. -/
def document (c : Cabinet) : String := c.toJson.compress

def itemsOfJson? : Json → Option (SortedMap ItemId Item)
  | .object ms => do
    let entries ← ms.mapM fun m => do
      let id ← m.1.text?.bind ItemId.parse?
      return (id, ← Item.ofJson? m.2)
    return .ofList entries
  | _ => none

def edgesOfJson? : Json → Option (SortedMap EdgeId Edge)
  | .object ms => do
    let entries ← ms.mapM fun m => do
      let n ← Json.word? m.1.source
      return (EdgeId.mk n, ← Edge.ofJson? m.2)
    return .ofList entries
  | _ => none

/-- The index that belongs to stored edges.  An edge goes by the number that it bears, and the last
of those that share a pair counts. -/
def indexOf (edges : SortedMap EdgeId Edge) : SortedMap Membership EdgeId :=
  .ofList (edges.values.map fun e => (e.key, e.id))

def ofJson? (v : Json) (settings : Settings) (epoch : Epoch) : Option Cabinet := do
  let r ← v.record? fields
  let items ← r.required "items" itemsOfJson?
  let edges ← r.required "edges" edgesOfJson?
  let deferred ← r.withDefault "deferred" [] EdgeId.listOfJson?
  let nextEdge ← r.required "next_edge" EdgeId.ofJson?
  some
    { settings, epoch, items, edges, index := indexOf edges, deferred, nextEdge, generation := 0 }

/-- Reads the document of a cabinet, and checks what was read if the settings say so. -/
def ofDocument (text : String) (settings : Settings) (epoch : Epoch) : Except Failure Cabinet :=
  match (Json.parse? text).bind (ofJson? · settings epoch) with
  | none => .error .badDocument
  | some c =>
    if settings.verifyOnLoad then
      match c.verify with
      | .ok () => .ok c
      | .error d => .error (.inconsistent d)
    else
      .ok c

end Filing.Cabinet
