import Filing.Settings

/-!
# Failures

The ways in which an operation can fail, as causes.  The wording is in `Failure.message` and nowhere
else.
-/

namespace Filing

/-- What can be wrong with stored edges and the lists that refer to them. -/
inductive Defect where
  /-- Some edges share their pair of item and container with another; how many, as a 64-bit word. -/
  | sharedPairs (count : UInt64)
  /-- An item lists an edge of another item. -/
  | foreignParentEdge (item : ItemId) (edge : EdgeId)
  /-- An item lists an edge that is not stored. -/
  | missingParentEdge (item : ItemId) (edge : EdgeId)
  | repeatedOnItemSide (edge : EdgeId)
  /-- A container lists an edge of another container. -/
  | foreignChildEdge (container : ItemId) (edge : EdgeId)
  /-- A container lists an edge that is not stored. -/
  | missingChildEdge (container : ItemId) (edge : EdgeId)
  | repeatedOnContainerSide (edge : EdgeId)
  /-- A deferred edge is not stored. -/
  | missingDeferred (edge : EdgeId)
  /-- No item lists the edge. -/
  | unlistedByItem (edge : EdgeId)
  /-- The edge is neither deferred nor listed by a container. -/
  | unlistedByContainer (edge : EdgeId)
  /-- An end of the edge is not stored. -/
  | missingEnd (edge : EdgeId)
  /-- The edges close a cycle. -/
  | cyclic
  /-- The index names an edge that is not stored. -/
  | missingIndexed (edge : EdgeId)
  /-- An edge could not be found on both of its sides. -/
  | undetachable (item container : ItemId)
  /-- What lies above a container cannot be climbed, so a new cycle cannot be ruled out. -/
  | unprovable (child parent : ItemId)
  /-- What lies above an item cannot be climbed, so there is no path to tell. -/
  | unresolvable (root item : ItemId)
deriving DecidableEq, Repr, Inhabited

/-- The wording of a defect.  The item through which a cycle passes is not told. -/
def Defect.message : Defect → String
  | .sharedPairs n =>
    String.ofList (Decimal.write n.toNat) ++ " edges share an (item, container) pair"
  | .foreignParentEdge i e => i.text ++ " lists " ++ e.text ++ " as a parent edge of another item"
  | .missingParentEdge i e => "item " ++ i.text ++ " references missing " ++ e.text
  | .repeatedOnItemSide e => e.text ++ " is listed twice on its item side"
  | .foreignChildEdge c e =>
    c.text ++ " lists " ++ e.text ++ " as a child edge of another container"
  | .missingChildEdge c e => "container " ++ c.text ++ " references missing " ++ e.text
  | .repeatedOnContainerSide e => e.text ++ " is listed twice on its container side"
  | .missingDeferred e => "deferred list references missing " ++ e.text
  | .unlistedByItem e => e.text ++ " is missing from its item's parent edges"
  | .unlistedByContainer e => e.text ++ " is missing from its container's child edges"
  | .missingEnd e => e.text ++ " references a missing item"
  | .cyclic => "cycle through *"
  | .missingIndexed e => "index references missing " ++ e.text
  | .undetachable i c => "could not detach " ++ i.text ++ " from " ++ c.text
  | .unprovable child parent =>
    "cannot prove adding " ++ child.text ++ " under " ++ parent.text ++ " is acyclic"
  | .unresolvable root item => "cannot resolve path from " ++ root.text ++ " to " ++ item.text

/-- Why an operation failed. -/
inductive Failure where
  /-- An item cannot be a member of itself. -/
  | selfParent (item : ItemId)
  /-- The new membership would close a cycle. -/
  | cycle (parent child : ItemId)
  /-- The policy of the caller refuses the addition. -/
  | refused (policy : AddPolicy) (parent child : ItemId)
  /-- The stored edges are not in order. -/
  | inconsistent (defect : Defect)
  | itemNotFound (item : ItemId)
  | notContainer (item : ItemId)
  /-- The container has members. -/
  | notEmpty (container : ItemId)
  | access (error : AccessError)
  /-- The text is no document of the expected form. -/
  | badDocument
  /-- The store refuses a text that is no document at all. -/
  | rejectedDocument
  /-- A reason given by the keeper of the documents. -/
  | storage (reason : String)
  | settings (error : SettingsError)
deriving DecidableEq, Repr, Inhabited

namespace Failure

/-- The wording of a failure.  Why a document was rejected is not told. -/
def message : Failure → String
  | selfParent i => "Structural violation: item " ++ i.text ++ " cannot be added to itself"
  | cycle p c =>
    "Structural violation: adding " ++ c.text ++ " under " ++ p.text ++ " would create a cycle"
  | refused policy p c =>
    "Policy violation: '" ++ policy.name ++ "' refused adding " ++ c.text ++ " to " ++ p.text
  | inconsistent d => "Inconsistent graph: " ++ d.message
  | itemNotFound i => "Item not found: " ++ i.text
  | notContainer i => "Item " ++ i.text ++ " is not a container"
  | notEmpty c => "Container " ++ c.text ++ " still has children"
  | access e => "ACL error: " ++ e.message
  | badDocument => "Serialization error: malformed document"
  | rejectedDocument => "Storage error: rejected snapshot: *"
  | storage reason => "Storage error: " ++ reason
  | settings e => "Configuration error: " ++ e.message

/-- Whether the failure is about the shape of the hierarchy. -/
def isStructural : Failure → Bool
  | selfParent _ | cycle _ _ => true
  | _ => false

/-- Whether a policy refused. -/
def isPolicyViolation : Failure → Bool
  | refused _ _ _ => true
  | _ => false

end Failure

end Filing
