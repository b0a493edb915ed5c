import Filing.Text.Hex

/-!
# Quoted text

The text of a JSON string, as it stands between its quotes.  A quoted text is kept unread, because
not every one means something: an escape may name half of a surrogate pair.

* `Quoted.ofString`: the written form of a string; only quotes, backslashes and control characters
  are escaped.
* `Quoted.text?`: the string that a quoted text means.
-/

namespace Filing

/-- What stands between the quotes of a JSON string. -/
structure Quoted where
  source : List Char
deriving DecidableEq, Repr, Inhabited

namespace Quoted

/-- The escape of one letter and the character that it means. -/
def shortEscapes : List (Char × Char) :=
  [('"', '"'), ('\\', '\\'), ('/', '/'), ('b', '\x08'), ('f', '\x0c'), ('n', '\n'), ('r', '\r'),
    ('t', '\t')]

/-- The character that an escape of one letter means. -/
def unescapeShort? (c : Char) : Option Char := shortEscapes.lookup c

/-- Whether a character must not stand in a quoted text. -/
def isControl (c : Char) : Bool := c.toNat < 0x20

/-- The written form of a character. -/
def escapeChar (c : Char) : List Char :=
  match c with
  | '"' => ['\\', '"']
  | '\\' => ['\\', '\\']
  | '\x08' => ['\\', 'b']
  | '\x0c' => ['\\', 'f']
  | '\n' => ['\\', 'n']
  | '\r' => ['\\', 'r']
  | '\t' => ['\\', 't']
  | c => if isControl c then '\\' :: 'u' :: Hex.write 4 c.toNat else [c]

/-- The written form of a list of characters. -/
def escape (cs : List Char) : List Char := cs.flatMap escapeChar

/-- The written form of a string. -/
def ofString (s : String) : Quoted := ⟨escape s.toList⟩

/-- The code unit that four digits name. -/
def unit? (a b c d : Char) : Option Nat := Hex.read [a, b, c, d]

def isHighSurrogate (n : Nat) : Bool := 0xd800 ≤ n && n < 0xdc00

def isLowSurrogate (n : Nat) : Bool := 0xdc00 ≤ n && n < 0xe000

/-- The character of a surrogate pair. -/
def joined (high low : Nat) : Char :=
  Char.ofNat (0x10000 + (high - 0xd800) * 0x400 + (low - 0xdc00))

/-- Reads a quoted text.  The two halves of a surrogate pair must stand side by side. -/
def unescape : List Char → Option (List Char)
  | [] => some []
  | '\\' :: 'u' :: a :: b :: c :: d :: rest =>
    match unit? a b c d with
    | none => none
    | some n =>
      if isHighSurrogate n then
        match rest with
        | '\\' :: 'u' :: a :: b :: c :: d :: rest =>
          match unit? a b c d with
          | some m => if isLowSurrogate m then (unescape rest).map (joined n m :: ·) else none
          | none => none
        | _ => none
      else if isLowSurrogate n then none
      else (unescape rest).map (Char.ofNat n :: ·)
  | '\\' :: c :: rest =>
    match unescapeShort? c with
    | some d => (unescape rest).map (d :: ·)
    | none => none
  | ['\\'] => none
  | c :: rest => (unescape rest).map (c :: ·)

/-- The string that a quoted text means. -/
def text? (q : Quoted) : Option String := (unescape q.source).map String.ofList

end Quoted

end Filing
