import Filing.Text.Blank
import Filing.Text.Decimal
import Filing.Time.Date

/-!
# Instants

An instant is kept by its parts in universal time, to the nanosecond.  Its written form ends in `Z`
and has no fraction, or one of three, six or nine digits, whichever is the shortest exact one.  The
reader takes any offset and is lenient about blanks and short fields; a written instant is read back
unchanged.  A second may be numbered 60.
-/

namespace Filing

/-- An instant in universal time. -/
structure Timestamp where
  date : Date
  hour : Nat
  minute : Nat
  second : Nat
  nano : Nat
  hour_lt : hour < 24
  minute_lt : minute < 60
  second_le : second ≤ 60
  nano_lt : nano < 1000000000
deriving DecidableEq

namespace Timestamp

/-! ## Writing -/

/-- The year with four digits, or with a sign outside the years 0 to 9999. -/
def writeYear (year : Int) : List Char :=
  if 0 ≤ year ∧ year ≤ 9999 then
    Decimal.pad 4 year.toNat
  else
    let digits := Decimal.write year.natAbs
    (if year < 0 then '-' else '+') :: (List.replicate (4 - digits.length) '0' ++ digits)

/-- The fraction of a second, in the fewest groups of three digits. -/
def writeFraction (nano : Nat) : List Char :=
  if nano = 0 then []
  else if nano % 1000000 = 0 then '.' :: Decimal.pad 3 (nano / 1000000)
  else if nano % 1000 = 0 then '.' :: Decimal.pad 6 (nano / 1000)
  else '.' :: Decimal.pad 9 nano

def write (t : Timestamp) : List Char :=
  writeYear t.date.year ++ '-' :: Decimal.pad 2 t.date.month ++ '-' :: Decimal.pad 2 t.date.day ++
    'T' :: Decimal.pad 2 t.hour ++ ':' :: Decimal.pad 2 t.minute ++ ':' :: Decimal.pad 2 t.second ++
    writeFraction t.nano ++ ['Z']

/-- The written form. -/
def text (t : Timestamp) : String := String.ofList t.write

instance : ToString Timestamp := ⟨text⟩

instance : Repr Timestamp := ⟨fun t _ => repr t.text⟩

/-! ## Reading -/

/-- Reads at least one and at most `width` digits. -/
def number? (width : Nat) (cs : List Char) : Option (Nat × List Char) :=
  let digits := (cs.take width).takeWhile Decimal.isDigit
  if digits.isEmpty then none else some (Decimal.read digits, cs.drop digits.length)

/-- Reads at most two digits after blanks. -/
def field? (cs : List Char) : Option (Nat × List Char) := number? 2 (Text.trimStart cs)

/-- Reads a year: four digits at most, or any number of digits after a sign. -/
def year? (cs : List Char) : Option (Int × List Char) :=
  match Text.trimStart cs with
  | '-' :: rest => (number? rest.length rest).map fun (n, rest) => (-n, rest)
  | '+' :: rest => (number? rest.length rest).map fun (n, rest) => (n, rest)
  | rest => (number? 4 rest).map fun (n, rest) => (n, rest)

/-- Reads a given character. -/
def char? (c : Char) : List Char → Option (List Char)
  | d :: rest => if d = c then some rest else none
  | [] => none

/-- Reads a given character after blanks. -/
def mark? (c : Char) (cs : List Char) : Option (List Char) := char? c (Text.trimStart cs)

/-- Reads a fraction of a second; digits after the ninth are dropped. -/
def fraction? : List Char → Option (Nat × List Char)
  | '.' :: rest =>
    let digits := rest.takeWhile Decimal.isDigit
    if digits.isEmpty then none
    else
      let kept := digits.take 9
      some (Decimal.read kept * Nat.pow 10 (9 - kept.length), rest.drop digits.length)
  | cs => some (0, cs)

/-- Reads exactly two digits. -/
def pair? : List Char → Option (Nat × List Char)
  | a :: b :: rest =>
    if Decimal.isDigit a ∧ Decimal.isDigit b then some (Decimal.read [a, b], rest) else none
  | _ => none

/-- Reads the minutes of an offset after any colons and blanks. -/
def offsetMinutes? (cs : List Char) : Option (Nat × List Char) :=
  (pair? (cs.dropWhile fun c => c = ':' || Text.isBlank c)).bind fun (m, rest) =>
    if m < 60 then some (m, rest) else none

/-- Reads the hours and minutes of an offset. -/
def offsetSize? (cs : List Char) : Option (Int × List Char) := do
  let (h, rest) ← pair? cs
  let (m, rest) ← offsetMinutes? rest
  some (h * 60 + m, rest)

/-- Reads an offset from universal time, in minutes. -/
def offset? : List Char → Option (Int × List Char)
  | 'Z' :: rest => some (0, rest)
  | 'z' :: rest => some (0, rest)
  | '+' :: rest => offsetSize? rest
  | '-' :: rest => (offsetSize? rest).map fun (m, rest) => (-m, rest)
  | '\u2212' :: rest => (offsetSize? rest).map fun (m, rest) => (-m, rest)
  | u :: t :: c :: rest =>
    if [u, t, c].map Char.toUpper = ['U', 'T', 'C'] then some (0, rest) else none
  | _ => none

/-- The date to which a local minute of the day belongs, and its minute of the day there. -/
def settle? (d : Date) (minutes : Int) : Option (Date × Nat) :=
  if minutes < 0 then d.prev?.map fun d => (d, (minutes + 1440).toNat)
  else if minutes < 1440 then some (d, minutes.toNat)
  else d.next?.map fun d => (d, (minutes - 1440).toNat)

/-- The instant with the given local parts and offset. -/
def ofLocal? (date : Date) (hour minute second nano : Nat) (offset : Int) : Option Timestamp :=
  if hour < 24 ∧ minute < 60 ∧ -1440 < offset ∧ offset < 1440 then
    (settle? date (hour * 60 + minute - offset)).bind fun (date, minutes) =>
      if h : minutes / 60 < 24 ∧ second ≤ 60 ∧ nano < 1000000000 then
        some
          { date, hour := minutes / 60, minute := minutes % 60, second, nano
            hour_lt := h.1, minute_lt := Nat.mod_lt _ (by decide), second_le := h.2.1
            nano_lt := h.2.2 }
      else none
  else none

/-- Reads year, month and day. -/
def date? (cs : List Char) : Option (Date × List Char) := do
  let (year, cs) ← year? cs
  let cs ← mark? '-' cs
  let (month, cs) ← field? cs
  let cs ← mark? '-' cs
  let (day, cs) ← field? cs
  some (← Date.ofParts? year month day, cs)

/-- Reads the letter, or the blank, between the date and the time. -/
def separator? : List Char → Option (List Char)
  | c :: rest => if c = 'T' ∨ c = 't' ∨ c = ' ' then some rest else none
  | [] => none

/-- Reads an instant. -/
def read (cs : List Char) : Option Timestamp := do
  let (date, cs) ← date? cs
  let cs ← separator? cs
  let (hour, cs) ← field? cs
  let cs ← mark? ':' cs
  let (minute, cs) ← field? cs
  let cs ← mark? ':' cs
  let (second, cs) ← field? cs
  let (nano, cs) ← fraction? cs
  let (offset, cs) ← offset? (Text.trimStart cs)
  if (Text.trimStart cs).isEmpty then ofLocal? date hour minute second nano offset else none

/-- Reads the text of an instant. -/
def parse? (s : String) : Option Timestamp := read s.toList

end Timestamp

end Filing
