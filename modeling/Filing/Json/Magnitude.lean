import Filing.Text.Magnitude

/-!
# The size of a number in a JSON text

A number is read into a word of 64 bits and a power of ten.  Digits that do not fit into the word
are dropped.  The word and the power are rounded to binary floating-point numbers before they are
multiplied, so that a number near the bound may count as too large, or as finite, against its exact
value.
-/

namespace Filing.Json

/-- Continues a number by digits while it stays a word.  The digits that are left come second. -/
def fill (n : Nat) : List Char → Nat × List Char
  | [] => (n, [])
  | c :: rest =>
    let next := n * 10 + Decimal.value c
    if next < UInt64.size then fill next rest else (n, c :: rest)

/-- The value that is read for a number.  A dropped digit before the point still counts as a place,
and the digits after the point go on filling the word. -/
def rounded (l : Decimal.Literal) : Decimal.Scientific :=
  let (whole, dropped) := fill 0 l.whole
  let (mantissa, left) := fill whole l.fraction
  ⟨mantissa, l.exponent + dropped.length + left.length - l.fraction.length⟩

/-- Whether a number literal is read as a finite number. -/
def isFinite (literal : List Char) : Bool :=
  let n := rounded (.ofChars literal)
  if n.mantissa = 0 || n.exponent < 0 then true
  else if 308 < n.exponent then false
  else
    let power := Nat.pow 10 n.exponent.toNat
    Decimal.nearest n.mantissa * Decimal.nearest power < Decimal.overflow

end Filing.Json
