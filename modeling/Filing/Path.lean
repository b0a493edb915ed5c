import Filing.Cabinet.Basic

/-!
# Paths

A path is a list of items, each a container of the next, from some top down to the item at which the
search for it began.  The empty path stands for "no path known".

Two paths that meet can be joined (`ItemPath.merge`): one gives what lies above the first common
item, the other what lies below it.  The path in which the common item sits deeper gives the upper
part, and ties are broken by the order of identifiers, so that the order of the two paths does not
matter where they meet in one place.
-/

namespace Filing

/-- Items from the top down. -/
structure ItemPath where
  nodes : List ItemId
deriving DecidableEq, Repr, Inhabited

namespace ItemPath

def empty : ItemPath := ⟨[]⟩

def length (p : ItemPath) : Nat := p.nodes.length

def isEmpty (p : ItemPath) : Bool := p.nodes.isEmpty

/-- The topmost item. -/
def top? (p : ItemPath) : Option ItemId := p.nodes.head?

/-- The item at which the search began. -/
def start? (p : ItemPath) : Option ItemId := p.nodes.getLast?

/-- The node before the first occurrence of `id`. -/
def nodeBefore? (id : ItemId) : List ItemId → Option ItemId
  | a :: b :: rest => if a = id then none else if b = id then some a else nodeBefore? id (b :: rest)
  | _ => none

/-- The item directly above `id` on the path. -/
def parentOf? (p : ItemPath) (id : ItemId) : Option ItemId := nodeBefore? id p.nodes

/-- What lies above and below the first occurrence of `id`. -/
def cut (p : ItemPath) (id : ItemId) : List ItemId × List ItemId :=
  (p.nodes.takeWhile (· ≠ id), (p.nodes.dropWhile (· ≠ id)).drop 1)

/-- Whether the first of two cut paths gives the upper part: the longer one does, then the one whose
upper part is smaller, then the one whose lower part is not smaller. -/
def isUpper (above below above' below' : List ItemId) : Bool :=
  match compare above.length above'.length with
  | .gt => true
  | .lt => false
  | .eq =>
    match compare above above' with
    | .lt => true
    | .gt => false
    | .eq => compare below' below != .gt

/-- Joins two paths at the first item of `p` that is also in `q`; without one the result is empty.
-/
def merge (p q : ItemPath) : ItemPath :=
  match p.nodes.find? (· ∈ q.nodes) with
  | none => empty
  | some id =>
    let (above, below) := p.cut id
    let (above', below') := q.cut id
    if isUpper above below above' below' then ⟨above ++ id :: below'⟩ else ⟨above' ++ id :: below⟩

/-- The first stored item from the top that satisfies `f`. -/
def firstMatch? (p : ItemPath) (c : Cabinet) (f : Item → Bool) : Option ItemId :=
  p.nodes.find? fun id => (c.item? id).any f

/-- The names of the items; one that is not stored goes by its identifier. -/
def names (p : ItemPath) (c : Cabinet) : List String :=
  p.nodes.map fun id => ((c.item? id).map (·.name)).getD id.text

/-- The identifiers from the top down, separated by slashes. -/
def text (p : ItemPath) : String := " / ".intercalate (p.nodes.map ItemId.text)

instance : ToString ItemPath := ⟨text⟩

end ItemPath

end Filing
