/-!
# Decimal digits

Natural numbers in decimal.  `write` has no leading zeros, `pad` fills up with zeros to a width, and
reading undoes both (`read_write`, `read_pad`).  A quotient is written with a fixed number of
places.
-/

namespace Filing.Decimal

/-- Whether a character is one of the ten digits. -/
def isDigit (c : Char) : Bool := 0x30 ≤ c.toNat && c.toNat ≤ 0x39

/-- The digit of a value below ten. -/
def digit (n : Nat) : Char := Char.ofNat (0x30 + n)

/-- The value of a digit. -/
def value (c : Char) : Nat := c.toNat - 0x30

/-- The digits of a number, highest first. -/
def write (n : Nat) : List Char :=
  if n < 10 then [digit n] else write (n / 10) ++ [digit (n % 10)]

/-- The lowest `width` digits of a number, highest first. -/
def pad : Nat → Nat → List Char
  | 0, _ => []
  | width + 1, n => pad width (n / 10) ++ [digit (n % 10)]

/-- Continues a number by the digits of a list. -/
def readFrom (n : Nat) (cs : List Char) : Nat := cs.foldl (fun n c => n * 10 + value c) n

/-- The number that a list of digits stands for. -/
def read (cs : List Char) : Nat := readFrom 0 cs

/-- The nearest integer to a quotient; a half goes to the even neighbour, and nothing is divided by
zero. -/
def roundDiv (num den : Nat) : Nat :=
  let q := num / den
  match compare (2 * (num % den)) den with
  | .lt => q
  | .gt => if den = 0 then 0 else q + 1
  | .eq => q + q % 2

/-- A quotient with a fixed number of decimal places. -/
def ratio (places num den : Nat) : List Char :=
  let unit := Nat.pow 10 places
  let scaled := roundDiv (num * unit) den
  write (scaled / unit) ++ '.' :: pad places scaled

theorem value_digit {n : Nat} (h : n < 10) : value (digit n) = n := by
  have : ∀ i : Fin 10, value (digit i) = i.val := by decide
  exact this ⟨n, h⟩

theorem isDigit_digit {n : Nat} (h : n < 10) : isDigit (digit n) = true := by
  have : ∀ i : Fin 10, isDigit (digit i) = true := by decide
  exact this ⟨n, h⟩

@[simp] theorem length_pad (width n : Nat) : (pad width n).length = width := by
  induction width generalizing n with
  | zero => rfl
  | succ width ih => simp [pad, ih]

theorem isDigit_of_mem_pad {width n : Nat} {c : Char} (h : c ∈ pad width n) : isDigit c = true := by
  induction width generalizing n with
  | zero => simp [pad] at h
  | succ width ih =>
    rw [pad, List.mem_append, List.mem_singleton] at h
    rcases h with h | rfl
    · exact ih h
    · exact isDigit_digit (Nat.mod_lt _ (by decide))

theorem write_ne_nil (n : Nat) : write n ≠ [] := by
  rw [write]
  split <;> simp

theorem isDigit_of_mem_write {n : Nat} {c : Char} (h : c ∈ write n) : isDigit c = true := by
  induction n using Nat.strongRecOn with
  | ind n ih =>
    rw [write] at h
    split at h
    · next hn =>
      rw [List.mem_singleton.mp h]
      exact isDigit_digit hn
    · next hn =>
      rcases List.mem_append.mp h with h | h
      · exact ih (n / 10) (by omega) h
      · rw [List.mem_singleton.mp h]
        exact isDigit_digit (Nat.mod_lt _ (by decide))

theorem head?_write {n : Nat} (h : n ≠ 0) : (write n).head? ≠ some '0' := by
  induction n using Nat.strongRecOn with
  | ind n ih =>
    rw [write]
    split
    · next hn =>
      have : ∀ i : Fin 10, i.val ≠ 0 → digit i ≠ '0' := by decide
      simpa using this ⟨n, hn⟩ h
    · next hn =>
      rw [List.head?_append, Option.or_of_isSome (by simp [write_ne_nil])]
      exact ih (n / 10) (by omega) (by omega)

theorem read_write (n : Nat) : read (write n) = n := by
  induction n using Nat.strongRecOn with
  | ind n ih =>
    rw [write]
    split
    · next h => simp [read, readFrom, value_digit h]
    · next h =>
      have hd : n % 10 < 10 := Nat.mod_lt _ (by decide)
      have := ih (n / 10) (by omega)
      rw [read, readFrom] at this ⊢
      rw [List.foldl_append, this]
      simp only [List.foldl_cons, List.foldl_nil, value_digit hd]
      omega

theorem read_pad (width n : Nat) : read (pad width n) = n % Nat.pow 10 width := by
  induction width generalizing n with
  | zero => simp [pad, read, readFrom, Nat.mod_one]
  | succ width ih =>
    have hd : n % 10 < 10 := Nat.mod_lt _ (by decide)
    have := ih (n / 10)
    rw [read, readFrom] at this ⊢
    rw [pad, List.foldl_append, this]
    simp only [List.foldl_cons, List.foldl_nil, value_digit hd]
    rw [show Nat.pow 10 (width + 1) = 10 * Nat.pow 10 width from Nat.mul_comm _ _, Nat.mod_mul]
    omega

/-- **A rounded quotient is off by at most a half.** -/
theorem roundDiv_near {num den : Nat} (h : 0 < den) :
    2 * (roundDiv num den * den) ≤ 2 * num + den ∧
      2 * num ≤ 2 * (roundDiv num den * den) + den := by
  have hdiv := Nat.div_add_mod' num den
  have hmod := Nat.mod_lt num h
  have hsucc := Nat.succ_mul (num / den) den
  rw [roundDiv]
  split
  · next hc =>
    have := Nat.compare_eq_lt.mp hc
    omega
  · next hc =>
    have := Nat.compare_eq_gt.mp hc
    rw [if_neg (Nat.ne_of_gt h), hsucc]
    omega
  · next hc =>
    have := Nat.compare_eq_eq.mp hc
    rcases Nat.mod_two_eq_zero_or_one (num / den) with he | he
    · rw [he, Nat.add_zero]
      omega
    · rw [he, hsucc]
      omega

/-- **A half goes to the even neighbour.** -/
theorem roundDiv_even {num den : Nat} (h : 2 * (num % den) = den) : roundDiv num den % 2 = 0 := by
  rw [roundDiv, Nat.compare_eq_eq.mpr h]
  dsimp only
  omega

end Filing.Decimal
