import Filing.Ascent.Cycle
import Filing.Cabinet.Linking
import Filing.Inheritance.Flow

/-!
# Placing items in containers

Adding, removing and moving.  Every addition is checked before anything changes, in a fixed order:
that the item is not put into itself, that the container is one, that the item is stored, that the
policy of the caller allows it, and that no cycle arises.  Then the edge is made, kinds are
converted where the container belongs to a sharing area, and grants flow.
-/

namespace Filing

namespace Cabinet

/-- Checks an addition without changing anything. -/
def checkAdd (c : Cabinet) (parent child : ItemId) (policy : AddPolicy) : Except Failure Unit := do
  if parent = child then
    throw (.selfParent child)
  let container ← c.container parent
  let member ← c.item child
  if !policy.allows container member then
    throw (.refused policy parent child)
  match c.checkCycle parent child with
  | .acyclic => return
  | .wouldCycle => throw (.cycle parent child)
  | .inconsistent => throw (.inconsistent (.unprovable child parent))

/-- Gives an item the shared variant of its kind; a change of kind is a change of structure. -/
def share (c : Cabinet) (id : ItemId) (kind : ContainerKind) : Cabinet :=
  if kind.sharedVariant = kind then c
  else (c.modifyItem id fun i => i.withContainerKind kind.sharedVariant).bump

end Cabinet

/-- Moves the members of a list that were not met from the unmet ones to the top of a stack. -/
def stackUp : List ItemId → List ItemId → List ItemId → List ItemId × List ItemId
  | [], unmet, stack => (unmet, stack)
  | id :: rest, unmet, stack =>
    if id ∈ unmet then stackUp rest (unmet.erase id) (id :: stack) else stackUp rest unmet stack

theorem length_stackUp (l unmet stack : List ItemId) :
    (stackUp l unmet stack).1.length + (stackUp l unmet stack).2.length =
      unmet.length + stack.length := by
  induction l generalizing unmet stack with
  | nil => rfl
  | cons id rest ih =>
    simp only [stackUp]
    split
    · next h =>
      have := List.length_pos_of_mem h
      rw [ih, List.length_erase_of_mem h, List.length_cons]
      omega
    · exact ih _ _

/-- Converts the containers on a stack and below it to their shared kinds.  The stack ends at an
item that is not stored. -/
def convert (c : Cabinet) (stack unmet : List ItemId) : Except Failure Unit × Cabinet :=
  match stack with
  | [] => (.ok (), c)
  | id :: stack =>
    match c.item? id with
    | none => (.error (.itemNotFound id), c)
    | some i =>
      match i.kind with
      | .document => convert c stack unmet
      | .container kind =>
        let met := stackUp (c.children id) unmet stack
        convert (c.share id kind) met.2 met.1
termination_by unmet.length + stack.length
decreasing_by
  · simp
  · have := length_stackUp (c.children id) unmet stack
    simp only [List.length_cons]
    omega

/-- Converts `child` and the containers below it if `parent` belongs to a sharing area. -/
def convertKinds (parent child : ItemId) : Edit Unit := fun c =>
  match c.item parent with
  | .error e => (.error e, c)
  | .ok i => if i.isShared then convert c [child] (c.memberIds.erase child) else (.ok (), c)

/-- How an addition was met. -/
inductive Added where
  /-- By a new edge. -/
  | added (edge : EdgeId)
  /-- By the edge that was there; nothing changed. -/
  | alreadyPresent (edge : EdgeId)
deriving DecidableEq, Repr

/-- What an addition needs beside the container and the item. -/
structure Addition where
  policy : AddPolicy
  /-- Who owns the new edge. -/
  acting : Principal
  propagation : Propagation
  /-- Whether the container lists the edge later, when deferred edges are entered. -/
  defer : Bool
  now : Timestamp

/-- Adds `child` to `parent`. -/
def add (parent child : ItemId) (a : Addition) : Edit Added := do
  let c ← get
  c.checkAdd parent child a.policy
  let (linked, c) ← c.link ⟨child, parent⟩ a.acting a.defer a.now
  set c
  match linked with
  | .existing e => return .alreadyPresent e
  | .created e => do
    if a.propagation.convertsKinds then
      convertKinds parent child
    a.propagation.onAdd parent child
    return .added e

/-- Removes `child` from `parent`; the answer is whether it could be taken off both sides. -/
def remove (parent child : ItemId) (propagation : Propagation) : Edit Bool := do
  let c ← get
  match c.unlink? ⟨child, parent⟩ with
  | none => return false
  | some c => do
    set c
    propagation.onRemove parent child
    return true

namespace Cabinet

/-- Whether an item may move from one container to another.  A move is out of the question, without
being an error, if the containers are the same, the item is not in the first, or the item is fixed.
Unless `unrestricted`, it is also out of the question if an end is the top of a sharing area or only
one end belongs to one. -/
def mayMove (c : Cabinet) (item origin target : ItemId) (unrestricted : Bool) :
    Except Failure Bool := do
  if origin = target || !c.isMember ⟨item, origin⟩ then
    return false
  let i ← c.item item
  if i.kind.isContainerThat fun k => !k.isRelocatable then
    return false
  if !unrestricted then
    let source ← c.container origin
    let destination ← c.container target
    if source.isSharingRoot || destination.isSharingRoot then
      return false
    if source.isShared != destination.isShared then
      return false
  c.checkAdd target item .standard
  return true

end Cabinet

/-- Moves an item from one container to another; the answer is whether it moved. -/
def move (item origin target : ItemId) (acting : Principal) (unrestricted : Bool)
    (now : Timestamp) : Edit Bool := do
  let c ← get
  if !(← c.mayMove item origin target unrestricted) then
    return false
  let propagation := c.settings.movePolicy
  if !(← remove origin item propagation) then
    return false
  let _ ← add target item { policy := .standard, acting, propagation, defer := false, now }
  return true

end Filing
