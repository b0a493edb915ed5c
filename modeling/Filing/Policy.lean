import Filing.Item.Basic

/-!
# Policies

Two choices are left to the caller of an addition: which items a container may hold (`AddPolicy`),
and how grants follow a new or a removed membership (`Propagation`).
-/

namespace Filing

/-- Which items a container may hold. -/
inductive AddPolicy where
  /-- Notebooks hold documents only, and a home folder has no container. -/
  | standard
  /-- Anything goes. -/
  | permissive
deriving DecidableEq, Repr, Inhabited

namespace AddPolicy

def all : List AddPolicy := [standard, permissive]

def name : AddPolicy → String
  | standard => "default"
  | permissive => "permissive"

/-- The policy with a given name. -/
def ofName? (s : String) : Option AddPolicy := all.find? (·.name = s)

/-- Whether `parent` may hold `child`. -/
def allows : AddPolicy → Item → Item → Bool
  | standard, parent, child =>
    !(parent.isNotebook && !child.isDocument) && child.kind != .container .root
  | permissive, _, _ => true

end AddPolicy

/-- How grants follow a membership. -/
inductive Propagation where
  /-- Members get the grants of their containers, down the whole subtree, and lose them on removal.
  -/
  | inherit
  /-- As `inherit`, but only to one level below the member, and kinds stay as they are. -/
  | share
  /-- As `inherit`, but containers keep their grants on removal. -/
  | notFromContainers
  /-- Grants stay as they are. -/
  | null
deriving DecidableEq, Repr, Inhabited

namespace Propagation

def all : List Propagation := [inherit, share, notFromContainers, null]

def name : Propagation → String
  | inherit => "inherit"
  | share => "share"
  | notFromContainers => "not_from_containers"
  | null => "null"

/-- The policy with a given name. -/
def ofName? (s : String) : Option Propagation := all.find? (·.name = s)

/-- Whether a container that joins a sharing area takes its shared kind. -/
def convertsKinds : Propagation → Bool
  | share => false
  | _ => true

theorem ofName?_name (p : Propagation) : ofName? p.name = some p := by
  cases p <;> decide

end Propagation

end Filing
