import Filing.Text.DefaultIgnorable
import Filing.Text.GraphemeExtend
import Filing.Text.Printable

/-!
# Texts in quotes

A text in double quotes that can be read without doubt: what has no ink of its own, and what could
be taken for the end of the text, is written by an escape.
-/

namespace Filing.Text

/-- Whether a character is seen, and is seen apart from the one before it. -/
def standsAlone (c : Char) : Bool :=
  isPrintable c && !isIgnorable c && (!extendsGrapheme c || isHalfwidthMark c)

theorem standsAlone_of_ascii {c : Char} (hl : 0x20 ≤ c.toNat) (hh : c.toNat ≤ 0x7e) :
    standsAlone c = true := by
  rw [standsAlone, isPrintable_of_ascii hl hh, isIgnorable_of_ascii (by omega),
    extendsGrapheme_of_lt (by omega)]
  rfl

/-- A character by its number, as in `\u{301}`. -/
def numbered (c : Char) : List Char :=
  '\\' :: 'u' :: '\x7b' :: (Nat.toDigits 16 c.toNat ++ ['\x7d'])

/-- The written form of a character in a quoted text.  Marks are written by their numbers wherever
they stand, for they would be drawn on the character before them. -/
def quoteChar : Char → List Char
  | '\x00' => ['\\', '0']
  | '\t' => ['\\', 't']
  | '\n' => ['\\', 'n']
  | '\r' => ['\\', 'r']
  | '"' => ['\\', '"']
  | '\\' => ['\\', '\\']
  | c => if standsAlone c then [c] else numbered c

/-- A text in quotes. -/
def quote (s : String) : String := String.ofList ('"' :: s.toList.flatMap quoteChar ++ ['"'])

/-- **An ASCII character with ink stands for itself**, unless it is a quote or a backslash. -/
theorem quoteChar_of_ascii {c : Char} (hl : 0x20 ≤ c.toNat) (hh : c.toNat ≤ 0x7e)
    (hq : c ≠ '"') (hb : c ≠ '\\') : quoteChar c = [c] := by
  unfold quoteChar
  split <;> first | rfl | contradiction | skip
  all_goals first
    | exact absurd hl (by decide)
    | rw [standsAlone_of_ascii hl hh]; rfl

end Filing.Text
