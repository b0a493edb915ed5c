import Filing.Text.Decimal

/-!
# The size of a written number

A number in decimal notation is finite as a binary floating-point number of 64 bits if it rounds to
one, that is, if it lies below `2 ^ 1024 - 2 ^ 970`.  The test is exact, and it compares large
powers of ten only where the count of digits leaves it open.
-/

namespace Filing.Decimal

/-- The parts of a number in decimal notation; the sign is dropped. -/
structure Literal where
  /-- The digits before the point. -/
  whole : List Char
  /-- The digits after the point. -/
  fraction : List Char
  exponent : Int

/-- Reads the digits of an exponent with their sign. -/
def exponentValue : List Char → Int
  | '-' :: rest => -read rest
  | '+' :: rest => read rest
  | rest => read rest

/-- Cuts a number into its parts. -/
def Literal.ofChars (cs : List Char) : Literal :=
  let isExponentMark (c : Char) : Bool := c = 'e' || c = 'E'
  let significand := (cs.takeWhile fun c => !isExponentMark c).filter (· ≠ '-')
  { whole := significand.takeWhile (· ≠ '.')
    fraction := (significand.dropWhile (· ≠ '.')).drop 1
    exponent := exponentValue ((cs.dropWhile fun c => !isExponentMark c).drop 1) }

/-- A number as a natural number times a power of ten. -/
structure Scientific where
  mantissa : Nat
  exponent : Int

/-- The exact value of a number. -/
def Literal.value (l : Literal) : Scientific :=
  ⟨read (l.whole ++ l.fraction), l.exponent - l.fraction.length⟩

/-- The least number that rounds to no finite one. -/
def overflow : Nat := Nat.pow 2 1024 - Nat.pow 2 970

/-- Whether a number rounds to a finite one. -/
def Scientific.isFinite (n : Scientific) : Bool :=
  let size : Int := (write n.mantissa).length + n.exponent
  if n.mantissa = 0 || size ≤ 308 then true
  else if 310 ≤ size then false
  else if 0 ≤ n.exponent then n.mantissa * Nat.pow 10 n.exponent.toNat < overflow
  else n.mantissa < overflow * Nat.pow 10 n.exponent.natAbs

/-- The number nearest to a natural number among those with at most 53 binary digits before their
trailing zeros; a half goes to the even neighbour. -/
def nearest (n : Nat) : Nat :=
  let unit := Nat.pow 2 (Nat.log2 n - 52)
  roundDiv n unit * unit

theorem roundDiv_one (n : Nat) : roundDiv n 1 = n := by
  simp [roundDiv, Nat.mod_one, Nat.compare_eq_lt.mpr Nat.zero_lt_one]

/-- **Short numbers are exact.** -/
theorem nearest_of_lt {n : Nat} (h : n < Nat.pow 2 53) : nearest n = n := by
  have hl : Nat.log2 n - 52 = 0 := by
    rcases Nat.eq_zero_or_pos n with rfl | hn
    · decide
    · have := (Nat.log2_lt (Nat.ne_of_gt hn)).mpr h
      omega
  rw [nearest, hl]
  exact (Nat.mul_one _).trans (roundDiv_one n)

end Filing.Decimal
