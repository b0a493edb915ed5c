import Filing.Graph.DepthFirst
import Filing.Path

/-!
# Searching upwards

A breadth-first search from an item through its containers.  It stops at the first item that is
looked for, and the path that it then tells is a shortest one; of several the one that follows
earlier edges first. Edges of a boundary are not followed.

The search answers nothing at all (`none`) where it meets a reference that leads nowhere, or where
the edges that it followed have a cycle: the stored graph is then not in order, and what was found
may be wrong.
-/

namespace Filing

/-- What a search has met so far. -/
structure Frontier where
  /-- Items that were met but whose containers were not, oldest first. -/
  queue : List ItemId
  /-- Stored items that were not met. -/
  unmet : List ItemId
  /-- Containers that were met, latest first, each with the item from which it was first met. -/
  reached : List (ItemId × ItemId)
  /-- The edges that were followed, as arcs upwards. -/
  followed : List (ItemId × ItemId)
deriving Repr

/-- Where one step of a search led. -/
inductive Progress where
  /-- To a reference that leads nowhere. -/
  | broken
  /-- To an item that was looked for. -/
  | arrived (id : ItemId) (f : Frontier)
  /-- To the next step. -/
  | moving (f : Frontier)
deriving Repr

/-- What a search looks for, and where it must not go. -/
structure Quest where
  isTarget : Item → Bool
  isBoundary : Edge → Bool

namespace Quest

/-- A search for one item that goes everywhere. -/
def forItem (target : ItemId) : Quest :=
  { isTarget := fun i => i.id = target, isBoundary := fun _ => false }

/-- A search for nothing that goes everywhere. -/
def everything : Quest := { isTarget := fun _ => false, isBoundary := fun _ => false }

end Quest

/-- The outcome of a search. -/
structure Ascent where
  /-- The item that was looked for. -/
  found : Option ItemId
  /-- Containers that were met, latest first, each with the item from which it was first met. -/
  reached : List (ItemId × ItemId)
deriving Repr

namespace Cabinet

/-- Follows the edges that an item lists. -/
def followEdges (c : Cabinet) (q : Quest) (id : ItemId) : List EdgeId → Frontier → Progress
  | [], f => .moving f
  | e :: rest, f =>
    match c.edge? e with
    | none => .broken
    | some edge =>
      if edge.item ≠ id then .broken
      else if q.isBoundary edge then c.followEdges q id rest f
      else
        let up := edge.container
        match c.item? up with
        | none => .broken
        | some container =>
          let f := { f with followed := (id, up) :: f.followed }
          if up ∈ f.unmet then
            let f := { f with unmet := f.unmet.erase up, reached := (up, id) :: f.reached }
            if q.isTarget container then .arrived up f
            else c.followEdges q id rest { f with queue := f.queue ++ [up] }
          else
            c.followEdges q id rest f

theorem followEdges_size {c : Cabinet} {q : Quest} {id : ItemId} {l : List EdgeId} {f g : Frontier}
    (h : c.followEdges q id l f = .moving g) :
    g.unmet.length + g.queue.length = f.unmet.length + f.queue.length := by
  induction l generalizing f with
  | nil =>
    cases h
    rfl
  | cons e rest ih =>
    simp only [followEdges] at h
    split at h
    · cases h
    · split at h
      · cases h
      · split at h
        · exact ih h
        · split at h
          · cases h
          · split at h
            · next hm =>
              split at h
              · cases h
              · have := ih h
                have hp := List.length_pos_of_mem hm
                simp only [List.length_append, List.length_cons, List.length_nil,
                  List.length_erase_of_mem hm] at this
                omega
            · have := ih h
              exact this

/-- Searches on from a frontier. -/
def ascendFrom (c : Cabinet) (q : Quest) (f : Frontier) : Progress :=
  match _hq : f.queue with
  | [] => .moving f
  | id :: queue =>
    match c.item? id with
    | none => .broken
    | some item =>
      match _hf : c.followEdges q id item.parentEdges { f with queue } with
      | .moving g => c.ascendFrom q g
      | .arrived up g => .arrived up g
      | .broken => .broken
termination_by f.unmet.length + f.queue.length
decreasing_by
  have := followEdges_size _hf
  simp only [_hq, List.length_cons] at this ⊢
  omega

/-- Searches upwards from an item, which is itself looked at first. -/
def ascend? (c : Cabinet) (q : Quest) (start : ItemId) : Option Ascent := do
  let item ← c.item? start
  if q.isTarget item then
    some { found := some start, reached := [] }
  else
    let begin :=
      { queue := [start], unmet := c.items.keys.erase start, reached := [], followed := [] }
    let trusted (found : Option ItemId) (f : Frontier) : Option Ascent :=
      if Graph.hasCycleFrom start f.followed then none else some { found, reached := f.reached }
    match c.ascendFrom q begin with
    | .broken => none
    | .arrived up f => trusted (some up) f
    | .moving f => trusted none f

/-- The way down from a container that was met to the start of the search. -/
def wayDown (id : ItemId) : List (ItemId × ItemId) → List ItemId
  | [] => [id]
  | (up, below) :: rest => if up = id then id :: wayDown below rest else wayDown id rest

/-- The shortest path from an item that satisfies `isTarget` down to `start`.  It is empty if there
is none, and unknown if what lies above `start` is not in order. -/
def shortestPath? (c : Cabinet) (q : Quest) (start : ItemId) : Option ItemPath :=
  (c.ascend? q start).map fun a =>
    match a.found with
    | some id => ⟨wayDown id a.reached⟩
    | none => .empty

/-- The shortest path from `target` down to `start`. -/
def shortestPathTo? (c : Cabinet) (start target : ItemId) : Option ItemPath :=
  c.shortestPath? (.forItem target) start

/-- Whether `target` is `start` or lies above it; nothing does where the graph is not in order. -/
def reaches (c : Cabinet) (start target : ItemId) : Bool :=
  (c.shortestPathTo? start target).any fun p => !p.isEmpty

/-- Everything above an item, nearest first; unknown where the graph is not in order. -/
def ancestors? (c : Cabinet) (start : ItemId) : Option (List ItemId) :=
  (c.ascend? .everything start).map fun a => (a.reached.map (·.1)).reverse

/-- The edges into the tops of sharing areas of others than `user`. -/
def foreignBoundary (c : Cabinet) (user : Principal) (e : Edge) : Bool :=
  (c.item? e.container).any fun i => i.isSharingRoot && i.owner != user

end Cabinet

end Filing
