/-!
# Cycles by pruning

A graph is given by its arcs, each from a source to a target.  An arc whose source is no target lies
on no cycle, so it may be dropped.  Dropping such arcs as long as there are any leaves nothing
exactly when the graph has no cycle: where arcs are left, every source is a target, and one can walk
backwards for ever.
-/

namespace Filing.Graph

variable {α : Type} [DecidableEq α]

/-- The arcs whose source is the target of an arc. -/
def prune (arcs : List (α × α)) : List (α × α) :=
  arcs.filter fun a => arcs.any fun b => b.2 = a.1

/-- Whether no walk along the arcs comes back to its start. -/
def isAcyclic (arcs : List (α × α)) : Bool :=
  if (prune arcs).length < arcs.length then isAcyclic (prune arcs) else arcs.isEmpty
termination_by arcs.length

end Filing.Graph
