import Filing.Ascent.Search
import Filing.Text.BinaryFraction

/-!
# Breadcrumbs

A breadcrumb is the shortest path from a root down to an item, as a viewer may see it: a viewer sees
no path that climbs into the top of a sharing area of someone else.

A resolver keeps the paths that it found.  A kept path is used again only for the same cabinet in
the same state, which the epoch and the generation tell, and only for a limited time.  The clock
counts nanoseconds.
-/

namespace Filing

/-- What a breadcrumb is asked for. -/
structure Trail where
  item : ItemId
  root : ItemId
  /-- For whom the boundaries of sharing areas count. -/
  viewer : Option Principal
deriving DecidableEq, Repr

/-- A path that was found, and the state in which it was found. -/
structure KeptPath where
  path : ItemPath
  epoch : Epoch
  generation : UInt64
  /-- The clock when it was found. -/
  since : Nat
deriving DecidableEq, Repr

namespace Cabinet

/-- The breadcrumb of a trail, found anew. -/
def breadcrumb (c : Cabinet) (t : Trail) : Except Failure ItemPath :=
  let isBoundary : Edge → Bool :=
    match t.viewer with
    | some user => c.foreignBoundary user
    | none => fun _ => false
  match c.shortestPath? { isTarget := fun i => i.id = t.root, isBoundary } t.item with
  | some path => .ok path
  | none => .error (.inconsistent (.unresolvable t.root t.item))

end Cabinet

/-- Finds breadcrumbs and keeps them. -/
structure Resolver where
  kept : List (Trail × KeptPath)
  /-- How many seconds a path may be kept. -/
  lifetime : UInt64
  /-- How many nanoseconds longer than these seconds a path may be kept. -/
  extra : Nat
  /-- How often a kept path was used. -/
  hits : Nat
  /-- How often no path was kept. -/
  misses : Nat
  /-- How often the kept path was out of date. -/
  stale : Nat

namespace Resolver

/-- A resolver that has kept nothing yet. -/
def new (lifetime : UInt64) (extra : Nat := 0) : Resolver :=
  { kept := [], lifetime, extra, hits := 0, misses := 0, stale := 0 }

/-- Whether a path was kept for too long. -/
def isExpired (r : Resolver) (k : KeptPath) (clock : Nat) : Bool :=
  r.lifetime.toNat * 1000000000 + r.extra < clock - k.since

/-- The path kept for a trail. -/
def find? (r : Resolver) (t : Trail) : Option KeptPath :=
  (r.kept.find? fun e => e.1 = t).map (·.2)

/-- Keeps a path in place of an earlier one. -/
def keep (r : Resolver) (t : Trail) (k : KeptPath) : Resolver :=
  { r with kept := (t, k) :: r.kept.filter fun e => e.1 ≠ t }

/-- Finds a path anew and keeps it. -/
def refresh (r : Resolver) (c : Cabinet) (t : Trail) (clock : Nat) :
    Except Failure ItemPath × Resolver :=
  match c.breadcrumb t with
  | .ok path => (.ok path, r.keep t ⟨path, c.epoch, c.generation, clock⟩)
  | .error e => (.error e, r)

/-- The breadcrumb of a trail, kept or found anew. -/
def resolve (r : Resolver) (c : Cabinet) (t : Trail) (clock : Nat) :
    Except Failure ItemPath × Resolver :=
  if !c.contains t.item then (.error (.itemNotFound t.item), r)
  else
    match r.find? t with
    | some k =>
      if k.epoch = c.epoch ∧ k.generation = c.generation ∧ !r.isExpired k clock then
        (.ok k.path, { r with hits := r.hits + 1 })
      else
        { r with stale := r.stale + 1 }.refresh c t clock
    | none => { r with misses := r.misses + 1 }.refresh c t clock

/-- The breadcrumb from `root` to `item` through `via`; it is empty if there is none. -/
def resolveVia (r : Resolver) (c : Cabinet) (item via root : ItemId) (clock : Nat) :
    Except Failure ItemPath × Resolver :=
  match r.resolve c ⟨item, via, none⟩ clock with
  | (.error e, r) => (.error e, r)
  | (.ok lower, r) =>
    match r.resolve c ⟨via, root, none⟩ clock with
    | (.error e, r) => (.error e, r)
    | (.ok upper, r) =>
      (.ok (if lower.isEmpty || upper.isEmpty then .empty else upper.merge lower), r)

/-- Forgets all paths and all counts. -/
def clear (r : Resolver) : Resolver := new r.lifetime r.extra

/-- Forgets the paths that were kept for too long. -/
def dropExpired (r : Resolver) (clock : Nat) : Resolver :=
  { r with kept := r.kept.filter fun e => !r.isExpired e.2 clock }

/-- The number of kept paths. -/
def size (r : Resolver) : Nat := r.kept.length

/-- The fraction of requests that were met by a kept path, with six places; zero before the first
request. -/
def hitRate (r : Resolver) : String :=
  String.ofList ((BinaryFraction.ofQuotient r.hits (r.hits + r.misses + r.stale)).fixed 6)

end Resolver

end Filing
