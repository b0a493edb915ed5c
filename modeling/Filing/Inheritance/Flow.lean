import Filing.Inheritance.Order

/-!
# The flow of grants

When an item becomes a member of a container, the grants of the container are merged into the item
and into what lies below it (`mergeDown`).  When it leaves the container, what the two had in common
is retracted (`retractDown`), except where another container still has it.  Public grants never
flow.
-/

namespace Filing

namespace Cabinet

/-- The grants that an item passes on to its members.  A shared notebook keeps those of elevated
roles to itself. -/
def passedOn (c : Cabinet) (i : Item) : AccessList :=
  let a := AccessList.withoutPublic i.access
  if i.kind.isContainerThat ContainerKind.isSharedCollection then
    AccessList.withoutPrincipals a c.settings.isElevated
  else
    a

/-- The grants that the item with a given identifier passes on. -/
def inheritable (c : Cabinet) (id : ItemId) : Except Failure AccessList := do
  let i ← c.item id
  return c.passedOn i

/-- The grants held by any of the items. -/
def grantsOf (c : Cabinet) (ids : List ItemId) : Except Failure AccessList :=
  ids.foldlM (fun a id => do
    let i ← c.item id
    return a.union i.access) ∅

end Cabinet

/-- Grants on their way to items that were not visited yet. -/
abbrev Pending := SortedMap ItemId AccessList

/-- Adds grants to what is on its way to an item. -/
def Pending.add (p : Pending) (grants : AccessList) (id : ItemId) : Pending :=
  p.insert id (((p.find? id).getD ∅).union grants)

/-- Visits items in order, hands each what is on its way to it, and passes on what it then holds.
Only `top` passes on if grants reach one level. -/
def pour (top : ItemId) (reach : Reach) : List ItemId → Pending → Edit Unit
  | [], _ => pure ()
  | id :: rest, pending => do
    match pending.find? id with
    | none => pour top reach rest pending
    | some grants => do
      let pending := pending.erase id
      let c ← get
      let i ← c.item id
      let i := { i with access := i.access.union grants }
      set (c.setAccess id i.access)
      if i.isContainer ∧ (reach = .subtree ∨ id = top) then
        pour top reach rest ((c.children id).foldl (·.add (c.passedOn i)) pending)
      else
        pour top reach rest pending

/-- Merges what `parent` passes on into `child` and what lies below it. -/
def mergeDown (parent child : ItemId) (reach : Reach) : Edit Unit := do
  let c ← get
  let grants ← c.inheritable parent
  pour child reach (c.inheritanceOrder child reach) (SortedMap.empty.insert child grants)

/-- Visits items in order, and takes from each those candidates that none of its containers holds.
-/
def drain (candidates : AccessList) : List ItemId → Edit Unit
  | [] => pure ()
  | id :: rest => do
    let c ← get
    let supplied ← c.grantsOf (c.parents id)
    let lost : AccessList := candidates.diff supplied
    if lost.isEmpty then
      drain candidates rest
    else do
      let i ← c.item id
      set (c.setAccess id (i.access.diff lost))
      drain candidates rest

/-- Retracts what `child` has in common with `parent` from `child` and what lies below it. -/
def retractDown (parent child : ItemId) (reach : Reach) : Edit Unit := do
  let c ← get
  let above ← c.item parent
  let below ← c.item child
  let candidates := AccessList.withoutPublic (above.access.inter below.access)
  if candidates.isEmpty then
    return
  drain candidates (c.inheritanceOrder child reach)

namespace Propagation

/-- What follows the addition of `child` to `parent`. -/
def onAdd : Propagation → (parent child : ItemId) → Edit Unit
  | inherit, parent, child => mergeDown parent child .subtree
  | share, parent, child => mergeDown parent child .oneLevel
  | notFromContainers, parent, child => mergeDown parent child .subtree
  | null, _, _ => pure ()

/-- What follows the removal of `child` from `parent`. -/
def onRemove : Propagation → (parent child : ItemId) → Edit Unit
  | inherit, parent, child => retractDown parent child .subtree
  | share, parent, child => retractDown parent child .oneLevel
  | notFromContainers, parent, child => do
    let c ← get
    let i ← c.item child
    if i.isDocument then
      retractDown parent child .subtree
  | null, _, _ => pure ()

end Propagation

end Filing
