import Filing.Access.AccessList
import Filing.Json.Record

/-!
# Written principals and grants

A principal is a tagged value with the kind as its tag; the public has no content.  A grant is a
record, and sets are arrays in ascending order, read in any order.
-/

namespace Filing

namespace Principal

def toJson : Principal → Json
  | user n => .ofMembers [("type", .ofString "user"), ("name", .ofString n)]
  | group n => .ofMembers [("type", .ofString "group"), ("name", .ofString n)]
  | role n => .ofMembers [("type", .ofString "role"), ("name", .ofString n)]
  | anonymous => .ofMembers [("type", .ofString "anonymous")]

def ofJson? (v : Json) : Option Principal := do
  let t ← v.tagged? "type" "name"
  match t.tag, t.content with
  | "user", some c => c.text?.map user
  | "group", some c => c.text?.map group
  | "role", some c => c.text?.map role
  | "anonymous", none => some anonymous
  | "anonymous", some .null => some anonymous
  | _, _ => none

end Principal

namespace Permission

def toJson (p : Permission) : Json := .ofString p.text

def ofJson? (v : Json) : Option Permission := v.text?.map Permission.mk

end Permission

namespace PermissionSet

def toJson (s : PermissionSet) : Json := .array (s.toList.map Permission.toJson)

def ofJson? (v : Json) : Option PermissionSet := do
  let elements ← v.array?
  return .ofList (← elements.mapM Permission.ofJson?)

end PermissionSet

namespace Grant

def fields : List String := ["principal", "permission"]

def toJson (g : Grant) : Json :=
  .ofMembers [("principal", g.principal.toJson), ("permission", g.permission.toJson)]

def ofJson? (v : Json) : Option Grant := do
  let r ← v.record? fields
  let principal ← r.required "principal" Principal.ofJson?
  let permission ← r.required "permission" Permission.ofJson?
  return { principal, permission }

end Grant

namespace AccessList

def toJson (a : AccessList) : Json := .array (a.toList.map Grant.toJson)

def ofJson? (v : Json) : Option AccessList := do
  let elements ← v.array?
  return .ofList (← elements.mapM Grant.ofJson?)

end AccessList

end Filing
