import Filing.Json.Value

/-!
# Reading JSON

A text is cut into tokens (`Json.tokens?`), and the tokens are put together by a machine with a
stack of unfinished arrays and objects (`Json.step`).  Both go through their input once from front
to back, so any depth of nesting can be read.
-/

namespace Filing.Json

/-! ## Tokens -/

/-- A piece of a JSON text. -/
inductive Token where
  | beginArray
  | endArray
  | beginObject
  | endObject
  | comma
  | colon
  | text (q : Quoted)
  /-- A literal name or a number. -/
  | scalar (v : Json)
deriving Repr

/-- Drops at least one digit. -/
def digits? (cs : List Char) : Option (List Char) :=
  match cs with
  | c :: rest => if Decimal.isDigit c then some (rest.dropWhile Decimal.isDigit) else none
  | [] => none

/-- Drops the digits of an integer, which has no leading zero. -/
def integer? : List Char → Option (List Char)
  | '0' :: rest => some rest
  | cs => digits? cs

/-- Drops the fraction of a number, if there is one. -/
def fraction? : List Char → Option (List Char)
  | '.' :: rest => digits? rest
  | cs => some cs

/-- Drops the exponent of a number, if there is one. -/
def exponent? : List Char → Option (List Char)
  | c :: rest =>
    if c = 'e' ∨ c = 'E' then
      match rest with
      | '+' :: rest => digits? rest
      | '-' :: rest => digits? rest
      | rest => digits? rest
    else some (c :: rest)
  | [] => some []

/-- Whether a word is a number. -/
def isNumber (cs : List Char) : Bool :=
  let unsigned := match cs with
    | '-' :: rest => rest
    | cs => cs
  (((integer? unsigned).bind fraction?).bind exponent?).any (·.isEmpty)

/-- The value that a word stands for. -/
def scalar? (word : List Char) : Option Json :=
  if word = ['n', 'u', 'l', 'l'] then some .null
  else if word = ['t', 'r', 'u', 'e'] then some (.bool true)
  else if word = ['f', 'a', 'l', 's', 'e'] then some (.bool false)
  else if isNumber word then some (.number word)
  else none

/-- Whether a character can be part of a word. -/
def isWordChar (c : Char) : Bool := c.isAlphanum || c = '+' || c = '-' || c = '.'

def isSpace (c : Char) : Bool := c = ' ' || c = '\n' || c = '\r' || c = '\t'

/-- The token of a single character. -/
def mark? : Char → Option Token
  | '[' => some .beginArray
  | ']' => some .endArray
  | '\x7b' => some .beginObject
  | '\x7d' => some .endObject
  | ',' => some .comma
  | ':' => some .colon
  | _ => none

/-- Where the scanner is. -/
inductive Mode where
  /-- Between tokens. -/
  | gap
  /-- In a word, with its characters so far, last first. -/
  | word (read : List Char)
  /-- In a quoted text. -/
  | quoted (read : List Char)
  /-- In a quoted text, after a backslash. -/
  | escape (read : List Char)
  /-- In a quoted text, with this many digits of an escape still to come. -/
  | digits (missing : Nat) (read : List Char)
deriving Repr

/-- The scanner state that a character leads to from a gap, and the token that it completes. -/
def fromGap (c : Char) : Option (Mode × List Token) :=
  if isSpace c then some (.gap, [])
  else if c = '"' then some (.quoted [], [])
  else if isWordChar c then some (.word [c], [])
  else (mark? c).map fun t => (.gap, [t])

/-- Reads one character, and tells the tokens that it completes. -/
def scan (c : Char) : Mode → Option (Mode × List Token)
  | .gap => fromGap c
  | .word read =>
    if isWordChar c then some (.word (c :: read), [])
    else do
      let v ← scalar? read.reverse
      let (mode, tokens) ← fromGap c
      some (mode, .scalar v :: tokens)
  | .quoted read =>
    if c = '"' then some (.gap, [.text ⟨read.reverse⟩])
    else if c = '\\' then some (.escape (c :: read), [])
    else if Quoted.isControl c then none
    else some (.quoted (c :: read), [])
  | .escape read =>
    if c = 'u' then some (.digits 4 (c :: read), [])
    else if (Quoted.unescapeShort? c).isSome then some (.quoted (c :: read), [])
    else none
  | .digits missing read =>
    if (Hex.value? c).isSome then
      some (if missing ≤ 1 then .quoted (c :: read) else .digits (missing - 1) (c :: read), [])
    else none

/-- The tokens from a scanner state on. -/
def tokensFrom : Mode → List Char → Option (List Token)
  | .gap, [] => some []
  | .word read, [] => (scalar? read.reverse).map fun v => [.scalar v]
  | _, [] => none
  | mode, c :: rest =>
    match scan c mode with
    | none => none
    | some (mode, []) => tokensFrom mode rest
    | some (mode, tokens) => (tokensFrom mode rest).map (tokens ++ ·)

/-- The tokens of a text. -/
def tokens? (cs : List Char) : Option (List Token) := tokensFrom .gap cs

/-! ## Values -/

/-- An array or an object that is not finished. -/
inductive Frame where
  /-- The elements so far, last first. -/
  | elements (done : List Json)
  /-- The members so far, last first, and the key of the one whose value comes next. -/
  | member (done : List (Quoted × Json)) (key : Quoted)

/-- What the machine expects. -/
inductive Phase where
  | value
  /-- A value or the end of an array that has just begun. -/
  | firstValue
  /-- A key or the end of an object that has just begun. -/
  | firstKey
  /-- A key after the given members, last first. -/
  | key (done : List (Quoted × Json))
  | colon (done : List (Quoted × Json)) (key : Quoted)
  /-- What may follow a complete value. -/
  | after (v : Json)

/-- Begins a value. -/
def begin : Token → List Frame → Option (Phase × List Frame)
  | .beginArray, stack => some (.firstValue, .elements [] :: stack)
  | .beginObject, stack => some (.firstKey, stack)
  | .text q, stack => some (.after (.string q), stack)
  | .scalar v, stack => some (.after v, stack)
  | _, _ => none

/-- Takes one token. -/
def step : Phase × List Frame → Token → Option (Phase × List Frame)
  | (.value, stack), t => begin t stack
  | (.firstValue, .elements [] :: stack), .endArray => some (.after (.array []), stack)
  | (.firstValue, stack), t => begin t stack
  | (.firstKey, stack), .endObject => some (.after (.object []), stack)
  | (.firstKey, stack), .text q => some (.colon [] q, stack)
  | (.key done, stack), .text q => some (.colon done q, stack)
  | (.colon done q, stack), .colon => some (.value, .member done q :: stack)
  | (.after v, .elements done :: stack), .comma => some (.value, .elements (v :: done) :: stack)
  | (.after v, .elements done :: stack), .endArray =>
    some (.after (.array (v :: done).reverse), stack)
  | (.after v, .member done q :: stack), .comma => some (.key ((q, v) :: done), stack)
  | (.after v, .member done q :: stack), .endObject =>
    some (.after (.object ((q, v) :: done).reverse), stack)
  | _, _ => none

/-- The value that tokens make up. -/
def build? (tokens : List Token) : Option Json :=
  match tokens.foldlM step (.value, []) with
  | some (.after v, []) => some v
  | _ => none

/-- Reads a text that holds one value and nothing else. -/
def read (cs : List Char) : Option Json := (tokens? cs).bind build?

/-- Reads a text that holds one value and nothing else. -/
def parse? (s : String) : Option Json := read s.toList

end Filing.Json
