import Filing.Text.Decimal

/-!
# Quotients in binary

A quotient of two counts is kept with 53 significant binary digits, as a binary floating-point
number of 64 bits keeps it, and it is written in decimal from there.  A quotient that lies halfway
between two decimals goes the way in which its binary form is off, and to the even one only where
the binary form is exact.
-/

namespace Filing

/-- A natural number over a power of two. -/
structure BinaryFraction where
  mantissa : Nat
  /-- The number of binary places. -/
  places : Nat

namespace BinaryFraction

/-- The number of binary places that leaves 53 digits of a quotient.  The lengths of the two numbers
give it but for one place. -/
def placesOf (num den : Nat) : Nat :=
  let places := 52 + den.log2 - num.log2
  if num * Nat.pow 2 places < Nat.pow 2 52 * den then places + 1 else places

/-- The nearest fraction with 53 digits to a quotient of at most one; a half goes to the even
neighbour. -/
def ofQuotient (num den : Nat) : BinaryFraction :=
  let places := placesOf num den
  ⟨Decimal.roundDiv (num * Nat.pow 2 places) den, places⟩

/-- A fraction with a fixed number of decimal places; a half goes to the even neighbour. -/
def fixed (f : BinaryFraction) (places : Nat) : List Char :=
  Decimal.ratio places f.mantissa (Nat.pow 2 f.places)

/-- **A quotient of at most one is scaled to 53 binary digits.** -/
theorem placesOf_bounds {num den : Nat} (hn : 0 < num) (h : num ≤ den) :
    Nat.pow 2 52 * den ≤ num * Nat.pow 2 (placesOf num den) ∧
      num * Nat.pow 2 (placesOf num den) < 2 * (Nat.pow 2 52 * den) := by
  have hadd (m n : Nat) : Nat.pow 2 (m + n) = Nat.pow 2 m * Nat.pow 2 n := Nat.pow_add 2 m n
  have hsucc (n : Nat) : Nat.pow 2 (n + 1) = Nat.pow 2 n * 2 := rfl
  have hpos (n : Nat) : 0 < Nat.pow 2 n := Nat.two_pow_pos n
  have hnum : Nat.pow 2 num.log2 ≤ num := Nat.log2_self_le (Nat.ne_of_gt hn)
  have hnum' : num < Nat.pow 2 (num.log2 + 1) := Nat.lt_log2_self
  have hden : Nat.pow 2 den.log2 ≤ den := Nat.log2_self_le (by omega)
  have hden' : den < Nat.pow 2 (den.log2 + 1) := Nat.lt_log2_self
  have hle : num.log2 < den.log2 + 1 :=
    (Nat.log2_lt (Nat.ne_of_gt hn)).mpr (Nat.lt_of_le_of_lt h hden')
  rw [hsucc] at hnum' hden'
  rw [placesOf]
  generalize hp : 52 + den.log2 - num.log2 = p
  have hsum : Nat.pow 2 num.log2 * Nat.pow 2 p = Nat.pow 2 52 * Nat.pow 2 den.log2 := by
    rw [← hadd, ← hadd, show num.log2 + p = 52 + den.log2 by omega]
  have hlow := Nat.mul_le_mul_right (Nat.pow 2 p) hnum
  have hhigh := Nat.mul_lt_mul_of_pos_right hnum' (hpos p)
  have hunit := Nat.mul_le_mul_left (Nat.pow 2 52) hden
  have hunit' := Nat.mul_lt_mul_of_pos_left hden' (hpos 52)
  rw [hsum] at hlow
  rw [Nat.mul_right_comm, hsum] at hhigh
  rw [← Nat.mul_assoc] at hunit'
  split
  · rw [hsucc p, ← Nat.mul_assoc]
    omega
  · omega

/-- **The fraction lies within half a unit of its last place.** -/
theorem ofQuotient_near {num den : Nat} (h : 0 < den) :
    let f := ofQuotient num den
    2 * (f.mantissa * den) ≤ 2 * (num * Nat.pow 2 f.places) + den ∧
      2 * (num * Nat.pow 2 f.places) ≤ 2 * (f.mantissa * den) + den :=
  Decimal.roundDiv_near h

end BinaryFraction

end Filing
