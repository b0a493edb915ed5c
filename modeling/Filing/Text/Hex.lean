/-!
# Hexadecimal digits

Numbers written with a fixed count of hexadecimal digits.  Digits are written in lower case and read
in either case, and reading undoes writing (`read_write`).
-/

namespace Filing.Hex

/-- The digit of a value below sixteen. -/
def digit (n : Nat) : Char :=
  if n < 10 then Char.ofNat (0x30 + n) else Char.ofNat (0x57 + n)

/-- The value of a digit in either case. -/
def value? (c : Char) : Option Nat :=
  let n := c.toNat
  if 0x30 ≤ n ∧ n ≤ 0x39 then some (n - 0x30)
  else if 0x61 ≤ n ∧ n ≤ 0x66 then some (n - 0x57)
  else if 0x41 ≤ n ∧ n ≤ 0x46 then some (n - 0x37)
  else none

/-- The lowest `width` digits of a number, highest first. -/
def write : Nat → Nat → List Char
  | 0, _ => []
  | width + 1, n => write width (n / 16) ++ [digit (n % 16)]

/-- Continues a number by further digits. -/
def readFrom (n : Nat) : List Char → Option Nat
  | [] => some n
  | c :: rest =>
    match value? c with
    | some d => readFrom (n * 16 + d) rest
    | none => none

/-- The number that a list of digits stands for. -/
def read (cs : List Char) : Option Nat := readFrom 0 cs

@[simp] theorem length_write (width n : Nat) : (write width n).length = width := by
  induction width generalizing n with
  | zero => rfl
  | succ width ih => simp [write, ih]

theorem value?_digit {n : Nat} (h : n < 16) : value? (digit n) = some n := by
  have : ∀ i : Fin 16, value? (digit i) = some i.val := by decide
  exact this ⟨n, h⟩

theorem isSome_value?_of_mem_write {width n : Nat} {c : Char} (h : c ∈ write width n) :
    (value? c).isSome = true := by
  induction width generalizing n with
  | zero => cases h
  | succ width ih =>
    rw [write, List.mem_append, List.mem_singleton] at h
    rcases h with h | rfl
    · exact ih h
    · rw [value?_digit (Nat.mod_lt _ (by decide))]
      rfl

theorem readFrom_append (n : Nat) (a b : List Char) :
    readFrom n (a ++ b) = (readFrom n a).bind fun m => readFrom m b := by
  induction a generalizing n with
  | nil => rfl
  | cons c a ih =>
    simp only [List.cons_append, readFrom]
    split
    · exact ih _
    · rfl

theorem readFrom_write (m width n : Nat) :
    readFrom m (write width n) = some (m * Nat.pow 16 width + n % Nat.pow 16 width) := by
  induction width generalizing n with
  | zero => simp [write, readFrom, Nat.mod_one]
  | succ width ih =>
    have hd : n % 16 < 16 := Nat.mod_lt _ (by decide)
    rw [write, readFrom_append, ih]
    simp only [Option.bind_some, readFrom, value?_digit hd, Option.some.injEq]
    have hs : Nat.pow 16 (width + 1) = 16 * Nat.pow 16 width := Nat.mul_comm _ _
    have h : n % Nat.pow 16 (width + 1) = 16 * (n / 16 % Nat.pow 16 width) + n % 16 := by
      rw [hs, Nat.mod_mul]
      omega
    rw [h, hs, Nat.add_mul, Nat.mul_assoc, Nat.mul_comm (Nat.pow 16 width) 16]
    omega

theorem read_write (width n : Nat) : read (write width n) = some (n % Nat.pow 16 width) := by
  simp [read, readFrom_write]

end Filing.Hex
