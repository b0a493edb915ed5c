import Filing.Policy
import Filing.Text.Blank

/-!
# Settings

What can be configured: the roles whose grants stop at shared notebooks, the propagation of moves,
how long a resolved path may be kept, and whether a loaded document is checked.
-/

namespace Filing

/-- What can be wrong with settings. -/
inductive SettingsError where
  /-- The text is no settings document. -/
  | malformed
  /-- The name of an elevated role is blank. -/
  | blankRole
  /-- Resolved paths would never be kept. -/
  | zeroLifetime
deriving DecidableEq, Repr, Inhabited

/-- The wording of an error. -/
def SettingsError.message : SettingsError → String
  | .malformed => "malformed settings"
  | .blankRole => "elevated role names cannot be empty"
  | .zeroLifetime => "breadcrumb_cache_ttl_secs must be greater than zero"

structure Settings where
  /-- The names of the roles whose grants are withheld below shared notebooks. -/
  elevatedRoles : SortedSet String
  /-- The propagation of moves. -/
  movePolicy : Propagation
  /-- How many seconds a resolved path may be kept. -/
  pathLifetime : UInt64
  /-- Whether a document is checked when it is loaded. -/
  verifyOnLoad : Bool
deriving DecidableEq

namespace Settings

/-- The roles that are elevated unless the settings name others. -/
def defaultRoles : SortedSet String := .ofList ["ROLE_PI", "ROLE_LAB_ADMIN"]

def defaultLifetime : UInt64 := 60

/-- The settings that hold where none are given. -/
def standard : Settings :=
  { elevatedRoles := defaultRoles, movePolicy := .inherit, pathLifetime := defaultLifetime
    verifyOnLoad := true }

instance : Inhabited Settings := ⟨standard⟩

/-- Whether a principal is an elevated role. -/
def isElevated (s : Settings) (p : Principal) : Bool := p.roleName?.any (· ∈ s.elevatedRoles)

/-- Reports the first rule that the settings break. -/
def validate (s : Settings) : Except SettingsError Unit :=
  if s.elevatedRoles.toList.any Text.allBlank then .error .blankRole
  else if s.pathLifetime = 0 then .error .zeroLifetime
  else .ok ()

end Settings

end Filing
