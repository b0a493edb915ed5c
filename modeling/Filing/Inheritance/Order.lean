import Filing.Cabinet.Basic

/-!
# The order of inheritance

Grants flow from containers to members, so the items below a given one are visited containers first.
They are found breadth first, and then placed: an item comes as soon as all of its containers among
them have been placed.  What is left over in a corrupted cabinet comes at the end, in the order in
which it was found.
-/

namespace Filing

/-- How far grants flow. -/
inductive Reach where
  /-- To the item and everything below it. -/
  | subtree
  /-- To the item and its members. -/
  | oneLevel
deriving DecidableEq, Repr, Inhabited

/-- Moves the members of a list from the unmet ones to the end of a queue. -/
def meet : List ItemId → List ItemId → List ItemId → List ItemId × List ItemId
  | [], unmet, queue => (unmet, queue)
  | id :: rest, unmet, queue =>
    if id ∈ unmet then meet rest (unmet.erase id) (queue ++ [id]) else meet rest unmet queue

theorem length_meet (l unmet queue : List ItemId) :
    (meet l unmet queue).1.length + (meet l unmet queue).2.length =
      unmet.length + queue.length := by
  induction l generalizing unmet queue with
  | nil => rfl
  | cons id rest ih =>
    simp only [meet]
    split
    · next h =>
      have := List.length_pos_of_mem h
      rw [ih, List.length_erase_of_mem h, List.length_append, List.length_singleton]
      omega
    · exact ih _ _

/-- Everything that is met from a queue, in the order in which it is met. -/
def discover (next : ItemId → List ItemId) (queue unmet : List ItemId) : List ItemId :=
  match queue with
  | [] => []
  | id :: queue =>
    let met := meet (next id) unmet queue
    id :: discover next met.2 met.1
termination_by unmet.length + queue.length
decreasing_by
  have := length_meet (next id) unmet queue
  simp only [List.length_cons]
  omega

/-- The number of containers that an item still waits for. -/
abbrev Waiting := SortedMap ItemId Nat

/-- Tells the members of a container that it has been placed.  A member that waits for no other
container is ready. -/
def release (unplaced : List ItemId) : List ItemId → Waiting → List ItemId → Waiting × List ItemId
  | [], waiting, ready => (waiting, ready)
  | id :: rest, waiting, ready =>
    match waiting.find? id with
    | none => release unplaced rest waiting ready
    | some n =>
      let waiting := waiting.insert id (n - 1)
      if n - 1 = 0 ∧ id ∈ unplaced then release unplaced rest waiting (ready ++ [id])
      else release unplaced rest waiting ready

theorem countP_release (unplaced l : List ItemId) (waiting : Waiting) (ready : List ItemId) :
    (release unplaced l waiting ready).2.countP (· ∉ unplaced) = ready.countP (· ∉ unplaced) := by
  induction l generalizing waiting ready with
  | nil => rfl
  | cons id rest ih =>
    simp only [release]
    split
    · exact ih _ _
    · split
      · next h =>
        rw [ih]
        simp [h.2]
      · exact ih _ _

/-- Places what is ready, and what gets ready by that.  The answer has the items in the order in
which they were placed, and then those that were never ready. -/
def place (next : ItemId → List ItemId) (ready unplaced : List ItemId) (waiting : Waiting) :
    List ItemId × List ItemId :=
  match ready with
  | [] => ([], unplaced)
  | id :: ready =>
    let rest := unplaced.erase id
    let released := release rest (next id) waiting ready
    let (ordered, left) := place next released.2 rest released.1
    (id :: ordered, left)
termination_by (unplaced.length, ready.countP (· ∉ unplaced))
decreasing_by
  by_cases h : id ∈ unplaced
  · refine Prod.Lex.left _ _ ?_
    have := List.length_pos_of_mem h
    rw [List.length_erase_of_mem h]
    omega
  · rw [List.erase_of_not_mem h]
    refine Prod.Lex.right _ ?_
    rw [countP_release, List.countP_cons_of_pos (by simpa using h)]
    omega

namespace Cabinet

/-- The identifiers of all members. -/
def memberIds (c : Cabinet) : List ItemId := (c.edges.values.map (·.item)).eraseDups

/-- The item and what lies below it within reach, in the order in which it is found. -/
def below (c : Cabinet) (id : ItemId) : Reach → List ItemId
  | .subtree => discover c.children [id] (c.memberIds.erase id)
  | .oneLevel => id :: (meet (c.children id) (c.memberIds.erase id) []).2

/-- The item and what lies below it within reach, containers first. -/
def inheritanceOrder (c : Cabinet) (id : ItemId) (reach : Reach) : List ItemId :=
  let found := c.below id reach
  let waiting : Waiting := .ofList (found.map fun i => (i, (c.parents i).countP (· ∈ found)))
  let ready := found.filter fun i => waiting.find? i = some 0
  let (ordered, left) := place c.children ready found waiting
  if ordered.length < found.length then ordered ++ left else ordered

end Cabinet

end Filing
