/-!
# Depth-first search for cycles

The search keeps a stack of nodes, each with those of its successors that are still to be looked at,
and a list of the nodes that it has not met yet.  A successor that is on the stack closes a cycle.
One that is neither on the stack nor unmet has been left behind, and no cycle passes through it.

Each step either removes a node from the unmet ones or shortens the stack, so the search ends.
-/

namespace Filing.Graph

variable {α : Type} [DecidableEq α]

/-- What a depth-first search came upon. -/
inductive Finding (α : Type) where
  /-- Everything was looked at, and there is no cycle. -/
  | clear
  /-- A node on the stack was met again. -/
  | back (node : α)
  /-- The successors of a node cannot be told. -/
  | blocked (node : α)
deriving DecidableEq, Repr

/-- The work that a stack holds. -/
def pending : List (α × List α) → Nat
  | [] => 0
  | f :: stack => f.2.length + 1 + pending stack

/-- Searches on from a stack.  A node without known successors blocks the search as soon as it is
met. -/
def depthFirst (next : α → Option (List α)) :
    (stack : List (α × List α)) → (unmet : List α) → Finding α
  | [], _ => .clear
  | (_, []) :: stack, unmet => depthFirst next stack unmet
  | (node, target :: rest) :: stack, unmet =>
    if target = node ∨ target ∈ stack.map (·.1) then
      .back target
    else if _h : target ∈ unmet then
      match next target with
      | none => .blocked target
      | some targets =>
        depthFirst next ((target, targets) :: (node, rest) :: stack) (unmet.erase target)
    else
      depthFirst next ((node, rest) :: stack) unmet
termination_by stack unmet => (unmet.length, pending stack)
decreasing_by
  · exact Prod.Lex.right _ (by simp [pending])
  · exact Prod.Lex.left _ _ (by
      have := List.length_pos_of_mem _h
      rw [List.length_erase_of_mem _h]
      omega)
  · exact Prod.Lex.right _ (by simp [pending])

/-- The targets of a node in a list of arcs. -/
def targets (arcs : List (α × α)) (node : α) : List α :=
  (arcs.filter fun a => a.1 = node).map (·.2)

/-- Whether a walk along the arcs from `start` can come back to a node that it has met. -/
def hasCycleFrom (start : α) (arcs : List (α × α)) : Bool :=
  let unmet := (arcs.map (·.2)).eraseDups.erase start
  depthFirst (fun node => some (targets arcs node)) [(start, targets arcs start)] unmet != .clear

end Filing.Graph
