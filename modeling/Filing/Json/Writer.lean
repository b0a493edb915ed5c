import Filing.Json.Value

/-!
# Writing JSON

The compact form: no blanks, members in their order.
-/

namespace Filing

/-- A quoted text with its quotes. -/
def Quoted.render (q : Quoted) : List Char := '"' :: q.source ++ ['"']

namespace Json

mutual

/-- The compact form of a value. -/
def render : Json → List Char
  | .null => ['n', 'u', 'l', 'l']
  | .bool true => ['t', 'r', 'u', 'e']
  | .bool false => ['f', 'a', 'l', 's', 'e']
  | .number literal => literal
  | .string q => q.render
  | .array elements => '[' :: renderElements elements ++ [']']
  | .object members => '\x7b' :: renderMembers members ++ ['\x7d']

/-- Values separated by commas. -/
def renderElements : List Json → List Char
  | [] => []
  | [v] => v.render
  | v :: rest => v.render ++ ',' :: renderElements rest

/-- Members separated by commas. -/
def renderMembers : List (Quoted × Json) → List Char
  | [] => []
  | [(k, v)] => k.render ++ ':' :: v.render
  | (k, v) :: rest => k.render ++ ':' :: v.render ++ ',' :: renderMembers rest

end

/-- The compact form of a value as a text. -/
def compress (v : Json) : String := String.ofList v.render

end Json

end Filing
