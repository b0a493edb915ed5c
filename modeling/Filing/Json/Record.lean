import Filing.Json.Magnitude
import Filing.Json.Value

/-!
# Records, words and tagged values

Three ways in which a JSON value stands for a value of a type with parts.

* A record is an object, or an array of its fields in their order.  Unknown members are ignored; a
  repeated field is an error.
* A word is a string, or an object whose only key it is and whose value is null.
* A tagged value is a record of a tag and a content.  The tag is a word in an object, and a string
  in an array.
-/

namespace Filing

/-- The fields of a record. -/
structure Record where
  fields : List (String × Json)
  /-- Whether the fields were given by name. -/
  named : Bool

namespace Record

def find? (r : Record) (name : String) : Option Json := r.fields.lookup name

/-- Reads a field that must be there. -/
def required {α : Type} (r : Record) (name : String) (read : Json → Option α) : Option α :=
  (r.find? name).bind read

/-- Reads a field that may be missing. -/
def withDefault {α : Type} (r : Record) (name : String) (default : α) (read : Json → Option α) :
    Option α :=
  match r.find? name with
  | some v => read v
  | none => some default

/-- Reads a field that may be null.  It may also be missing if the fields are given by name. -/
def nullable {α : Type} (r : Record) (name : String) (read : Json → Option α) : Option (Option α) :=
  match r.find? name with
  | some .null => some none
  | some v => (read v).map some
  | none => if r.named then some none else none

end Record

/-- A tag and what it is the tag of. -/
structure Tagged where
  tag : String
  content : Option Json
  /-- Whether the content stands before the tag. -/
  early : Bool

namespace Json

/-- The members of an object, if all keys can be read. -/
def members? (ms : List (Quoted × Json)) : Option (List (String × Json)) :=
  ms.mapM fun m => m.1.text?.map (·, m.2)

/-- Reads a record with the given fields. -/
def record? (fields : List String) : Json → Option Record
  | .object ms => do
    let ms ← members? ms
    let known := ms.filter fun m => m.1 ∈ fields
    if (known.map (·.1)).Nodup then some ⟨known, true⟩ else none
  | .array vs => if vs.length ≤ fields.length then some ⟨fields.zip vs, false⟩ else none
  | _ => none

/-- Whether a value stands for nothing.  An object without members does if it was read `early`. -/
def isUnit (early : Bool) : Json → Bool
  | .null => true
  | .object [] => early
  | _ => false

/-- Reads a word. -/
def word (early : Bool) : Json → Option String
  | .string q => q.text?
  | .object [(k, v)] => if v.isUnit early then k.text? else none
  | _ => none

/-- Reads a tagged value. -/
def tagged? (tag content : String) (v : Json) : Option Tagged := do
  let r ← v.record? [tag, content]
  if !r.named && r.fields.length ≠ 2 then none
  else
    some
      { tag := ← r.required tag (if r.named then word false else text?)
        content := r.find? content
        early := (r.fields.head?.map (·.1)) = some content }

mutual

/-- Whether strings can be read, numbers have a size, and arrays and objects nest at most `depth`
deep. -/
def fits (depth : Nat) : Json → Bool
  | .null => true
  | .bool _ => true
  | .number literal => isFinite literal
  | .string q => q.text?.isSome
  | .array elements => 0 < depth && fitsAll (depth - 1) elements
  | .object members => 0 < depth && fitsMembers (depth - 1) members

def fitsAll (depth : Nat) : List Json → Bool
  | [] => true
  | v :: rest => v.fits depth && fitsAll depth rest

def fitsMembers (depth : Nat) : List (Quoted × Json) → Bool
  | [] => true
  | (k, v) :: rest => k.text?.isSome && v.fits depth && fitsMembers depth rest

end

end Json

end Filing
