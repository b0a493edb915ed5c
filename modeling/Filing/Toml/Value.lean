/-!
# TOML values and tables

A TOML document is a table.  While it is read, tables remember how they came about, because that
decides what may still be added to them: a table with a header of its own takes no second header and
no dotted key from outside, one that was made by a dotted key takes no header, and inline values
take nothing.
-/

namespace Filing

/-- A TOML value.  Floating-point numbers and dates are told apart from the rest, but not read. -/
inductive Toml where
  | string (s : String)
  | integer (n : Int)
  | boolean (b : Bool)
  | float
  | datetime
  | array (elements : List Toml)
  | table (entries : List (String × Toml))
deriving Repr, Inhabited

namespace Toml

/-- How a table came about. -/
inductive Origin where
  /-- By a header, or as the document itself. -/
  | header
  /-- On the way to a table with a longer header. -/
  | implied
  /-- By a dotted key. -/
  | dotted
deriving DecidableEq, Repr

/-- A value, a table or an array of tables, while a document is read. -/
inductive Node where
  | value (v : Toml)
  | table (origin : Origin) (entries : List (String × Node))
  /-- Tables with a common header, last first. -/
  | tables (entries : List (List (String × Node)))
deriving Repr

/-- The entries of a table and how it came about. -/
structure Table where
  origin : Origin
  entries : List (String × Node)

/-- The table of a document of which nothing was read. -/
def Table.empty : Table := ⟨.header, []⟩

def Table.find? (t : Table) (key : String) : Option Node := t.entries.lookup key

/-- Puts an entry in place of one with the same key, or at the end. -/
def put (key : String) (n : Node) : List (String × Node) → List (String × Node)
  | [] => [(key, n)]
  | e :: rest => if e.1 = key then (key, n) :: rest else e :: put key n rest

def Table.put (t : Table) (key : String) (n : Node) : Table :=
  { t with entries := Toml.put key n t.entries }

/-- Changes the table at the end of a path by `f`, and makes the tables on the way that are missing.
A dotted key passes no table with a header. -/
def Table.at (dotted : Bool) (f : Table → Option Table) : List String → Table → Option Table
  | [], t => f t
  | key :: path, t =>
    match t.find? key with
    | none => do
      let s ← Table.at dotted f path ⟨if dotted then .dotted else .implied, []⟩
      some (t.put key (.table s.origin s.entries))
    | some (.value _) => none
    | some (.table origin entries) =>
      if dotted ∧ origin = .header then none
      else do
        let s ← Table.at dotted f path ⟨origin, entries⟩
        some (t.put key (.table s.origin s.entries))
    | some (.tables []) => none
    | some (.tables (last :: earlier)) => do
      let s ← Table.at dotted f path ⟨.header, last⟩
      some (t.put key (.tables (s.entries :: earlier)))

/-- Enters a value under a key that is not taken. -/
def Table.enter (key : String) (n : Node) (t : Table) : Option Table :=
  match t.find? key with
  | none => some (t.put key n)
  | some _ => none

/-- Enters a value under a dotted key.  The tables on the way must come from dotted keys alone. -/
def Table.enterDotted (path : List String) (key : String) (n : Node) (t : Table) : Option Table :=
  t.at true (fun t => if path.isEmpty ∨ t.origin = .dotted then t.enter key n else none) path

/-- Begins the table of a header. -/
def Table.beginTable (path : List String) (key : String) (t : Table) : Option Table :=
  t.at false (fun t =>
    match t.find? key with
    | none => some (t.put key (.table .header []))
    | some (.table .implied entries) => some (t.put key (.table .header entries))
    | some _ => none) path

/-- Begins the next table of an array of tables. -/
def Table.beginElement (path : List String) (key : String) (t : Table) : Option Table :=
  t.at false (fun t =>
    match t.find? key with
    | none => some (t.put key (.tables [[]]))
    | some (.tables earlier) => some (t.put key (.tables ([] :: earlier)))
    | some _ => none) path

mutual

/-- The value that was read. -/
def Node.toToml : Node → Toml
  | .value v => v
  | .table _ entries => .table (entriesToToml entries)
  | .tables elements => .array (elementsToToml elements).reverse

def entriesToToml : List (String × Node) → List (String × Toml)
  | [] => []
  | (k, n) :: rest => (k, n.toToml) :: entriesToToml rest

def elementsToToml : List (List (String × Node)) → List Toml
  | [] => []
  | entries :: rest => .table (entriesToToml entries) :: elementsToToml rest

end

/-- The word that a value stands for: a string, or the only key of a table whose value there is
empty. -/
def word? : Toml → Option String
  | .string s => some s
  | .table [(k, .table [])] => some k
  | .table [(k, .array [])] => some k
  | _ => none

end Toml

end Filing
