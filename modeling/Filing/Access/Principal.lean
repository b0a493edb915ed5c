/-!
# Principals

A principal is an identity that can hold grants: a user, a group, a role held within a group, or the
anonymous public.  Its text is `kind:name`, and `anonymous` for the public.  A name may hold further
colons, because only the first colon of a text separates the kind from the name.

Principals are ordered by their kind and then by their name (`Principal.rank`).
-/

namespace Filing

/-- What can be wrong with the text of a principal or of a permission. -/
inductive AccessError where
  /-- The text has no colon. -/
  | missingKind (text : String)
  /-- Nothing follows the first colon. -/
  | emptyName (text : String)
  /-- The word before the first colon is no kind of principal. -/
  | unknownKind (kind : String)
  /-- A permission without text. -/
  | emptyPermission
deriving DecidableEq, Repr, Inhabited

/-- The wording of an error. -/
def AccessError.message : AccessError → String
  | .missingKind text => "Invalid principal: missing kind prefix: '" ++ text ++ "'"
  | .emptyName text => "Invalid principal: empty name: '" ++ text ++ "'"
  | .unknownKind kind => "Invalid principal: unknown principal kind '" ++ kind ++ "'"
  | .emptyPermission => "Permission cannot be empty"

/-- An identity that can hold grants. -/
inductive Principal where
  /-- An individual. -/
  | user (name : String)
  | group (name : String)
  /-- A role held within a group. -/
  | role (name : String)
  /-- The unauthenticated public. -/
  | anonymous
deriving DecidableEq, Repr, Inhabited

namespace Principal

/-- The place of the kind in the order of principals. -/
def rank : Principal → Nat
  | .user _ => 0
  | .group _ => 1
  | .role _ => 2
  | .anonymous => 3

/-- The name; the public has none. -/
def name : Principal → String
  | .user n => n
  | .group n => n
  | .role n => n
  | .anonymous => ""

theorem eq_of_rank_name {p q : Principal} (hr : p.rank = q.rank) (hn : p.name = q.name) :
    p = q := by
  cases p <;> cases q <;> simp_all [rank, name]

instance : Ord Principal := ⟨compareLex (compareOn rank) (compareOn name)⟩

instance : Std.TransOrd Principal :=
  inferInstanceAs (Std.TransCmp (compareLex (compareOn rank) (compareOn name)))

instance : Std.LawfulEqOrd Principal where
  eq_of_compare {p q} h := by
    have h' : compareLex (compareOn rank) (compareOn name) p q = .eq := h
    rw [compareLex_eq_eq, compareOn, compareOn, Std.compare_eq_iff_eq, Std.compare_eq_iff_eq] at h'
    exact eq_of_rank_name h'.1 h'.2

/-- Whether this is the public. -/
def isAnonymous : Principal → Bool
  | .anonymous => true
  | _ => false

/-- The name of a role. -/
def roleName? : Principal → Option String
  | .role n => some n
  | _ => none

/-- The text of a principal. -/
def text : Principal → String
  | .user n => "user:" ++ n
  | .group n => "group:" ++ n
  | .role n => "role:" ++ n
  | .anonymous => "anonymous"

instance : ToString Principal := ⟨text⟩

/-- Reads the text of a principal.  An empty name is reported before an unknown kind. -/
def parse (s : String) : Except AccessError Principal :=
  if s = "anonymous" then
    .ok .anonymous
  else
    match s.toList.span (· ≠ ':') with
    | (_, []) => .error (.missingKind s)
    | (_, [_]) => .error (.emptyName s)
    | (kind, _ :: name) =>
      let name := String.ofList name
      match String.ofList kind with
      | "user" => .ok (.user name)
      | "group" => .ok (.group name)
      | "role" => .ok (.role name)
      | other => .error (.unknownKind other)

end Principal

end Filing
