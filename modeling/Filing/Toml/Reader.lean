import Filing.Text.Hex
import Filing.Text.Magnitude
import Filing.Time.Date
import Filing.Toml.Value

/-!
# Reading TOML

A reader takes characters from the front of a text and gives what it read and the rest.  A document
is a list of lines, each of which changes the table of the document: a header says where the entries
after it go, and an entry puts a value under a key.

Values nest at most 79 deep, and a key has fewer than 80 parts.
-/

namespace Filing.Toml

/-- Reads something from the front of a text. -/
abbrev Reader (α : Type) := List Char → Option (α × List Char)

/-- Reads as many as there are. -/
def many {α : Type} (p : Reader α) (cs : List Char) : List α × List Char :=
  match p cs with
  | none => ([], cs)
  | some (a, rest) =>
    if rest.length < cs.length then
      let (as, rest) := many p rest
      (a :: as, rest)
    else ([], cs)
termination_by cs.length

/-- Drops a given text. -/
def drop? : List Char → List Char → Option (List Char)
  | [], cs => some cs
  | c :: s, d :: cs => if c = d then drop? s cs else none
  | _ :: _, [] => none

/-! ## Blanks and comments -/

def isSpace (c : Char) : Bool := c = ' ' || c = '\t'

def skipSpaces (cs : List Char) : List Char := cs.dropWhile isSpace

/-- Drops the end of a line. -/
def newline? : List Char → Option (List Char)
  | '\n' :: rest => some rest
  | '\r' :: '\n' :: rest => some rest
  | _ => none

/-- Whether a character may stand in a comment. -/
def isCommentChar (c : Char) : Bool := c = '\t' || (0x20 ≤ c.toNat && c.toNat != 0x7f)

/-- Drops a comment, if there is one. -/
def skipComment : List Char → List Char
  | '#' :: rest => rest.dropWhile isCommentChar
  | cs => cs

/-- Drops blanks and a comment up to the end of a line, and the end itself. -/
def lineEnd? (cs : List Char) : Option (List Char) :=
  match skipComment (skipSpaces cs) with
  | [] => some []
  | cs => newline? cs

/-- Drops a blank, a comment with its line end, or a line end. -/
def gapPart? : Reader Unit
  | [] => none
  | '#' :: rest => (newline? (rest.dropWhile isCommentChar)).map ((), ·)
  | c :: rest => if isSpace c then some ((), rest) else (newline? (c :: rest)).map ((), ·)

/-- Drops blanks, comments and line ends. -/
def skipGap (cs : List Char) : List Char := (many gapPart? cs).2

/-! ## Strings -/

/-- Reads the character that follows a backslash. -/
def escape? : Reader Char
  | 'b' :: rest => some ('\x08', rest)
  | 't' :: rest => some ('\t', rest)
  | 'n' :: rest => some ('\n', rest)
  | 'f' :: rest => some ('\x0c', rest)
  | 'r' :: rest => some ('\r', rest)
  | '"' :: rest => some ('"', rest)
  | '\\' :: rest => some ('\\', rest)
  | 'u' :: rest => scalar? 4 rest
  | 'U' :: rest => scalar? 8 rest
  | _ => none
where
  /-- Reads a character by its number. -/
  scalar? (width : Nat) (cs : List Char) : Option (Char × List Char) :=
    let digits := cs.take width
    if digits.length = width then
      (Hex.read digits).bind fun n =>
        if n.isValidChar then some (Char.ofNat n, cs.drop width) else none
    else none

/-- Whether a character may stand in a string on one line. -/
def isTextChar (c : Char) : Bool := isCommentChar c

/-- Reads a part of a string in double quotes on one line. -/
def basicPart? : Reader (List Char)
  | '\\' :: rest => (escape? rest).map fun (c, rest) => ([c], rest)
  | c :: rest => if isTextChar c ∧ c ≠ '"' then some ([c], rest) else none
  | [] => none

/-- Drops line ends and blanks after a backslash at the end of a line. -/
def foldedLine? (cs : List Char) : Option (List Char) :=
  (newline? (skipSpaces cs)).map fun rest =>
    (many (fun cs => match cs with
      | [] => none
      | c :: rest =>
        if isSpace c then some ((), rest) else (newline? (c :: rest)).map ((), ·)) rest).2

/-- Reads a part of a string in triple double quotes. -/
def multiBasicPart? : Reader (List Char)
  | '\\' :: rest =>
    match foldedLine? rest with
    | some rest => some ([], rest)
    | none => (escape? rest).map fun (c, rest) => ([c], rest)
  | c :: rest =>
    if isTextChar c ∧ c ≠ '"' then some ([c], rest)
    else (newline? (c :: rest)).map (['\n'], ·)
  | [] => none

/-- Reads a part of a string in triple single quotes. -/
def multiLiteralPart? : Reader (List Char)
  | c :: rest =>
    if isTextChar c ∧ c ≠ '\x27' then some ([c], rest)
    else (newline? (c :: rest)).map (['\n'], ·)
  | [] => none

/-- Reads the parts of a string in triple quotes.  One or two quotes in a row belong to the string,
also at its end. -/
def multiBody (quote : Char) (part : Reader (List Char)) (cs : List Char) :
    Option (List Char × List Char) :=
  let (parts, rest) := many (fun cs =>
    match part cs with
    | some r => some r
    | none =>
      let quotes := cs.takeWhile (· = quote)
      let after := cs.drop quotes.length
      if (quotes.length = 1 ∨ quotes.length = 2) ∧ (part after).isSome then some (quotes, after)
      else none) cs
  let quotes := rest.takeWhile (· = quote)
  if 3 ≤ quotes.length ∧ quotes.length ≤ 5 then
    some (parts.flatten ++ quotes.drop 3, rest.drop quotes.length)
  else none

/-- Drops a line end directly after the opening quotes. -/
def skipFirstLine (cs : List Char) : List Char := (newline? cs).getD cs

/-- Reads a string on one line. -/
def lineString? : Reader String
  | '"' :: rest =>
    match many basicPart? rest with
    | (parts, '"' :: rest) => some (String.ofList parts.flatten, rest)
    | _ => none
  | '\x27' :: rest =>
    let isLiteral (c : Char) : Bool := isTextChar c && c != '\x27'
    match rest.dropWhile isLiteral with
    | '\x27' :: after => some (String.ofList (rest.takeWhile isLiteral), after)
    | _ => none
  | _ => none

/-- Reads a string. -/
def string? : Reader String
  | '"' :: '"' :: '"' :: rest =>
    (multiBody '"' multiBasicPart? (skipFirstLine rest)).map fun (s, rest) =>
      (String.ofList s, rest)
  | '\x27' :: '\x27' :: '\x27' :: rest =>
    (multiBody '\x27' multiLiteralPart? (skipFirstLine rest)).map fun (s, rest) =>
      (String.ofList s, rest)
  | cs => lineString? cs

/-! ## Numbers, dates and names -/

/-- Reads digits with single underscores between them. -/
def digitRun? (isDigit : Char → Bool) : Reader (List Char)
  | c :: rest =>
    if isDigit c then
      let (more, rest) := many (fun cs => match cs with
        | '_' :: d :: rest => if isDigit d then some (d, rest) else none
        | d :: rest => if isDigit d then some (d, rest) else none
        | [] => none) rest
      some (c :: more, rest)
    else none
  | [] => none

/-- Reads an optional sign. -/
def sign : List Char → List Char × List Char
  | '+' :: rest => (['+'], rest)
  | '-' :: rest => (['-'], rest)
  | cs => ([], cs)

/-- Reads decimal digits without a leading zero. -/
def wholeDigits? : Reader (List Char)
  | '0' :: rest => some (['0'], rest)
  | cs => digitRun? Decimal.isDigit cs

/-- Reads the exponent of a floating-point number. -/
def floatExponent? : Reader (List Char)
  | c :: rest =>
    if c = 'e' ∨ c = 'E' then
      let (s, rest) := sign rest
      (digitRun? Decimal.isDigit rest).map fun (ds, rest) => ('e' :: s ++ ds, rest)
    else none
  | [] => none

/-- Reads what follows the whole part of a floating-point number. -/
def floatTail? : Reader (List Char)
  | '.' :: rest => do
    let (ds, rest) ← digitRun? Decimal.isDigit rest
    match floatExponent? rest with
    | some (e, rest) => some ('.' :: ds ++ e, rest)
    | none => some ('.' :: ds, rest)
  | cs => floatExponent? cs

/-- Reads a floating-point number.  A positive one must be finite. -/
def float? : Reader Toml := fun cs =>
  let (s, unsigned) := sign cs
  match drop? ['i', 'n', 'f'] unsigned, drop? ['n', 'a', 'n'] unsigned with
  | some rest, _ => some (.float, rest)
  | none, some rest => some (.float, rest)
  | none, none => do
    let (whole, rest) ← wholeDigits? unsigned
    let (tail, rest) ← floatTail? rest
    let value := (Decimal.Literal.ofChars (whole ++ tail)).value
    if s = ['-'] ∨ value.isFinite then some (.float, rest) else none

/-- An integer of 64 bits with a sign. -/
def integerOf? (n : Int) : Option Toml :=
  if -9223372036854775808 ≤ n ∧ n ≤ 9223372036854775807 then some (.integer n) else none

/-- The value of digits in a base. -/
def inBase (base : Nat) (ds : List Char) : Nat :=
  ds.foldl (fun n d => n * base + (Hex.value? d).getD 0) 0

/-- Reads an integer in a base that is a power of two. -/
def basedInteger? (base : Nat) : Reader Toml := fun cs => do
  let (ds, rest) ← digitRun? (fun c => (Hex.value? c).any (· < base)) cs
  some (← integerOf? (inBase base ds), rest)

/-- Reads an integer. -/
def integer? : Reader Toml
  | '0' :: 'x' :: rest => basedInteger? 16 rest
  | '0' :: 'o' :: rest => basedInteger? 8 rest
  | '0' :: 'b' :: rest => basedInteger? 2 rest
  | cs => do
    let (s, unsigned) := sign cs
    let (ds, rest) ← wholeDigits? unsigned
    let n : Int := Decimal.read ds
    some (← integerOf? (if s = ['-'] then -n else n), rest)

/-- Reads a number of exactly `width` digits. -/
def fixed? (width : Nat) : Reader Nat := fun cs =>
  let ds := cs.take width
  if ds.length = width ∧ ds.all Decimal.isDigit then some (Decimal.read ds, cs.drop width) else none

/-- Reads a date. -/
def date? : Reader Unit := fun cs => do
  let (year, cs) ← fixed? 4 cs
  let cs ← drop? ['-'] cs
  let (month, cs) ← fixed? 2 cs
  let cs ← drop? ['-'] cs
  let (day, cs) ← fixed? 2 cs
  let _ ← Date.ofParts? year month day
  some ((), cs)

/-- Reads a time of the day. -/
def time? : Reader Unit := fun cs => do
  let (hour, cs) ← fixed? 2 cs
  let cs ← drop? [':'] cs
  let (minute, cs) ← fixed? 2 cs
  let cs ← drop? [':'] cs
  let (second, cs) ← fixed? 2 cs
  if hour ≤ 23 ∧ minute ≤ 59 ∧ second ≤ 60 then
    match cs with
    | '.' :: rest =>
      let ds := rest.takeWhile Decimal.isDigit
      if ds.isEmpty then some ((), cs) else some ((), rest.drop ds.length)
    | cs => some ((), cs)
  else none

/-- Drops an offset from universal time, if there is one. -/
def skipOffset (cs : List Char) : List Char :=
  match cs with
  | 'Z' :: rest => rest
  | 'z' :: rest => rest
  | c :: rest =>
    if c = '+' ∨ c = '-' then
      let offset := do
        let (hour, rest) ← fixed? 2 rest
        let rest ← drop? [':'] rest
        let (minute, rest) ← fixed? 2 rest
        if hour ≤ 23 ∧ minute ≤ 59 then some rest else none
      offset.getD cs
    else cs
  | [] => []

/-- Reads a date, a time or both. -/
def datetime? : Reader Toml := fun cs =>
  match date? cs with
  | some (_, rest) =>
    let timed := match rest with
      | c :: after => if c = 'T' ∨ c = 't' ∨ c = ' ' then time? after else none
      | [] => none
    match timed with
    | some (_, rest) => some (.datetime, skipOffset rest)
    | none => some (.datetime, rest)
  | none => (time? cs).map fun (_, rest) => (.datetime, rest)

/-- Reads a truth value. -/
def boolean? : Reader Toml := fun cs =>
  match drop? ['t', 'r', 'u', 'e'] cs, drop? ['f', 'a', 'l', 's', 'e'] cs with
  | some rest, _ => some (.boolean true, rest)
  | none, some rest => some (.boolean false, rest)
  | none, none => none

/-- The first reader that reads anything decides. -/
def firstOf {α : Type} (ps : List (Reader α)) : Reader α := fun cs => ps.firstM fun p => p cs

/-! ## Keys -/

def isBareChar (c : Char) : Bool := c.isAlphanum || c = '_' || c = '-'

/-- Reads one part of a key. -/
def keyPart? : Reader String := fun cs =>
  match lineString? cs with
  | some r => some r
  | none =>
    let name := cs.takeWhile isBareChar
    if name.isEmpty then none else some (String.ofList name, cs.drop name.length)

/-- Reads a key of one or more parts, with blanks around them.  The last part is given by itself. -/
def key? : Reader (List String × String) := fun cs => do
  let (first, cs) ← keyPart? (skipSpaces cs)
  let (more, cs) := many (fun cs =>
    match skipSpaces cs with
    | '.' :: rest => keyPart? (skipSpaces rest)
    | _ => none) cs
  let parts := first :: more
  if 80 ≤ parts.length then none
  else some ((parts.dropLast, parts.getLastD ""), skipSpaces cs)

/-! ## Values -/

/-- Reads one or more things that are separated by commas. -/
def separated {α : Type} (p : Reader α) (skip : List Char → List Char) :
    Reader (List α) := fun cs => do
  let (first, cs) ← p cs
  let (more, cs) := many (fun cs =>
    match skip cs with
    | ',' :: rest => p rest
    | _ => none) cs
  some (first :: more, cs)

/-- Reads the elements of an array up to its end. -/
def arrayRest? (value : Reader Toml) : Reader Toml := fun cs =>
  let (elements, cs) := match separated (fun cs => value (skipGap cs)) skipGap cs with
    | some (elements, cs) =>
      match skipGap cs with
      | ',' :: rest => (elements, rest)
      | cs => (elements, cs)
    | none => ([], cs)
  match skipGap cs with
  | ']' :: rest => some (.array elements, rest)
  | _ => none

/-- Reads a key, an equals sign and a value. -/
def pair? (value : Reader Toml) : Reader ((List String × String) × Toml) := fun cs => do
  let (key, cs) ← key? cs
  let cs ← drop? ['='] cs
  let (v, cs) ← value (skipSpaces cs)
  some ((key, v), cs)

/-- Reads the entries of an inline table up to its end. -/
def tableRest? (value : Reader Toml) : Reader Toml := fun cs => do
  let (entries, cs) := (separated (pair? value) skipSpaces cs).getD ([], cs)
  match skipSpaces cs with
  | '\x7d' :: rest => do
    let t ← entries.foldlM (fun t e => t.enterDotted e.1.1 e.1.2 (.value e.2)) Table.empty
    some (.table (entriesToToml t.entries), rest)
  | _ => none

/-- Reads a value in which others nest less than `depth` deep. -/
def value? (depth : Nat) : Reader Toml := fun cs =>
  match depth, cs with
  | depth + 1, '[' :: rest => arrayRest? (value? depth) rest
  | depth + 1, '\x7b' :: rest => tableRest? (value? depth) rest
  | 0, '[' :: _ => none
  | 0, '\x7b' :: _ => none
  | _, cs =>
    firstOf [fun cs => (string? cs).map fun (s, rest) => (.string s, rest), boolean?, datetime?,
      float?, integer?] cs

/-! ## Documents -/

/-- A document of which some lines were read, and the header under which the next entry goes. -/
structure Draft where
  table : Table
  path : List String

/-- Enters an entry under the current header. -/
def Draft.enter (d : Draft) (key : List String × String) (v : Toml) : Option Draft := do
  let t ← d.table.at false (fun t => t.enterDotted key.1 key.2 (.value v)) d.path
  some { d with table := t }

/-- Takes one line. -/
def line? (d : Draft) (cs : List Char) : Option (Draft × List Char) :=
  match skipSpaces cs with
  | '[' :: '[' :: rest => do
    let ((path, key), rest) ← key? rest
    let rest ← drop? [']', ']'] rest
    some (⟨← d.table.beginElement path key, path ++ [key]⟩, rest)
  | '[' :: rest => do
    let ((path, key), rest) ← key? rest
    let rest ← drop? [']'] rest
    some (⟨← d.table.beginTable path key, path ++ [key]⟩, rest)
  | cs =>
    match lineEnd? cs with
    | some _ => some (d, cs)
    | none => do
      let ((key, v), rest) ← pair? (value? 79) cs
      some (← d.enter key v, rest)

/-- Takes all lines. -/
def lines? (d : Draft) (cs : List Char) : Option Draft := do
  let (d, rest) ← line? d cs
  let rest ← lineEnd? rest
  if rest.isEmpty then some d
  else if rest.length < cs.length then lines? d rest
  else none
termination_by cs.length

/-- Reads a document. -/
def parse? (s : String) : Option (List (String × Toml)) :=
  let cs := match s.toList with
    | '\ufeff' :: rest => rest
    | cs => cs
  (lines? ⟨.empty, []⟩ cs).map fun d => entriesToToml d.table.entries

end Filing.Toml
