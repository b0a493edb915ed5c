import Filing.Json.Quoted
import Filing.Text.Decimal

/-!
# JSON values

A JSON text as a tree.  Strings and numbers are kept as they are written, and an object keeps all of
its members in order, repeated ones included: what a number must look like and which repetitions are
errors depends on what is read.
-/

namespace Filing

inductive Json where
  | null
  | bool (b : Bool)
  /-- A number as it is written. -/
  | number (literal : List Char)
  | string (q : Quoted)
  | array (elements : List Json)
  | object (members : List (Quoted × Json))
deriving Repr, Inhabited

namespace Json

def ofString (s : String) : Json := .string (.ofString s)

def ofNat (n : Nat) : Json := .number (Decimal.write n)

/-- The object with the given members. -/
def ofMembers (members : List (String × Json)) : Json :=
  .object (members.map fun m => (.ofString m.1, m.2))

def bool? : Json → Option Bool
  | .bool b => some b
  | _ => none

def text? : Json → Option String
  | .string q => q.text?
  | _ => none

def array? : Json → Option (List Json)
  | .array l => some l
  | _ => none

/-- The value of digits without a leading zero. -/
def plainNat? (literal : List Char) : Option Nat :=
  if literal.isEmpty || !literal.all Decimal.isDigit ||
      (literal.head? = some '0' && literal.length != 1) then none
  else some (Decimal.read literal)

/-- A number below `2 ^ 64` that is written in plain digits. -/
def word? : List Char → Option UInt64 := fun literal =>
  (plainNat? literal).bind fun n => if n < UInt64.size then some n.toUInt64 else none

/-- The word that a number stands for. -/
def uint64? : Json → Option UInt64
  | .number literal => word? literal
  | _ => none

end Json

end Filing
