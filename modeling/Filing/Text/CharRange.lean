/-!
# Ranges of characters

A property of characters is given by a list of closed ranges in ascending order (`Separated`), so
that the list has one form only.
-/

namespace Filing.Text

/-- The characters from one to another, both included, by their numbers. -/
structure CharRange where
  first : Nat
  last : Nat
deriving DecidableEq, Repr

namespace CharRange

/-- Whether a character lies in a range. -/
def contains (r : CharRange) (c : Char) : Bool := r.first ≤ c.toNat && c.toNat ≤ r.last

/-- Whether a character lies in one of the ranges. -/
def covers (table : List CharRange) (c : Char) : Bool := table.any (·.contains c)

/-- Whether the ranges go upwards from a number, none is empty, and between two of them something is
left out. -/
def separatedFrom (n : Nat) : List CharRange → Bool
  | [] => true
  | r :: rest => n ≤ r.first && r.first ≤ r.last && separatedFrom (r.last + 2) rest

/-- The ranges go upwards, none is empty, and no two of them could be joined. -/
def Separated (table : List CharRange) : Prop := separatedFrom 0 table = true

instance (table : List CharRange) : Decidable (Separated table) :=
  inferInstanceAs (Decidable (separatedFrom 0 table = true))

theorem contains_iff {r : CharRange} {c : Char} :
    r.contains c = true ↔ r.first ≤ c.toNat ∧ c.toNat ≤ r.last := by
  simp [contains]

theorem covers_iff {table : List CharRange} {c : Char} :
    covers table c = true ↔ ∃ r ∈ table, r.first ≤ c.toNat ∧ c.toNat ≤ r.last := by
  simp [covers, contains_iff]

theorem covers_eq_false {table : List CharRange} {low high : Nat} {c : Char}
    (h : ∀ r ∈ table, r.last < low ∨ high < r.first) (hl : low ≤ c.toNat) (hh : c.toNat ≤ high) :
    covers table c = false := by
  rw [Bool.eq_false_iff, ne_eq, covers_iff]
  rintro ⟨r, hr, h1, h2⟩
  rcases h r hr with h | h <;> omega

end CharRange

end Filing.Text
