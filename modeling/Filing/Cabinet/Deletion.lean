import Filing.Cabinet.Linking

/-!
# Deletion

An item is deleted softly, in one container (`markDeletedIn`) or everywhere (`setDeleted`), or taken
out of the cabinet for good (`destroy`).  A container must be empty to be destroyed.
-/

namespace Filing.Cabinet

/-- Sets or removes the deletion mark of a membership; the answer is whether there is one. -/
def markDeletedIn (c : Cabinet) (key : Membership) (deleted : Bool) (now : Timestamp) :
    Except Failure (Bool × Cabinet) := do
  let _ ← c.item key.item
  let _ ← c.item key.container
  match c.index.find? key with
  | none => .ok (false, c)
  | some e =>
    match c.edge? e with
    | some _ => .ok (true, { c with edges := c.edges.modify e fun edge => edge.mark deleted now })
    | none => .error (.inconsistent (.missingIndexed e))

/-- Whether a membership bears the deletion mark. -/
def isDeletedIn (c : Cabinet) (key : Membership) : Bool := (c.edgeBetween? key).any (·.deleted)

/-- Sets or removes the deletion mark of an item. -/
def setDeleted (c : Cabinet) (id : ItemId) (deleted : Bool) : Except Failure Cabinet := do
  let _ ← c.item id
  .ok (c.modifyItem id fun i => { i with deleted })

/-- Ends the memberships of an item in the given containers, one after the other. -/
def detach (id : ItemId) : List ItemId → Edit Unit
  | [] => pure ()
  | container :: rest => do
    match (← get).unlink? ⟨id, container⟩ with
    | some c => do
      set c
      detach id rest
    | none => throw (.inconsistent (.undetachable id container))

/-- Takes an item out of the cabinet, together with its memberships.  The answer is the item as it
was when it went. -/
def destroy (id : ItemId) : Edit Item := do
  let c ← get
  let item ← c.item id
  if item.isContainer && !(c.childEdges id).isEmpty then
    throw (.notEmpty id)
  detach id (c.parents id)
  let c ← get
  let item ← c.item id
  set { c with items := c.items.erase id }.bump
  return item

end Filing.Cabinet
