import Filing.Json.Record
import Filing.Settings
import Filing.Toml.Reader

/-!
# Written settings

Settings are written as JSON and read from JSON or TOML.  Every field may be left out.  Reading does
not validate: only a file of settings is validated, once it is read.
-/

namespace Filing

namespace Propagation

def toJson (p : Propagation) : Json := .ofString p.name

def ofJson? (v : Json) : Option Propagation := (v.word false).bind ofName?

end Propagation

namespace Settings

def fields : List String :=
  ["elevated_roles", "move_policy", "breadcrumb_cache_ttl_secs", "verify_on_load"]

def toJson (s : Settings) : Json :=
  .ofMembers
    [("elevated_roles", .array (s.elevatedRoles.toList.map .ofString)),
      ("move_policy", s.movePolicy.toJson),
      ("breadcrumb_cache_ttl_secs", .ofNat s.pathLifetime.toNat),
      ("verify_on_load", .bool s.verifyOnLoad)]

/-- Reads the names of roles. -/
def rolesOfJson? (v : Json) : Option (SortedSet String) := do
  let elements ← v.array?
  return .ofList (← elements.mapM Json.text?)

def ofJson? (v : Json) : Option Settings := do
  let r ← v.record? fields
  let elevatedRoles ← r.withDefault "elevated_roles" standard.elevatedRoles rolesOfJson?
  let movePolicy ← r.withDefault "move_policy" standard.movePolicy Propagation.ofJson?
  let pathLifetime ← r.withDefault "breadcrumb_cache_ttl_secs" standard.pathLifetime Json.uint64?
  let verifyOnLoad ← r.withDefault "verify_on_load" standard.verifyOnLoad Json.bool?
  return { elevatedRoles, movePolicy, pathLifetime, verifyOnLoad }

/-! ## TOML -/

/-- Reads an entry that may be missing. -/
def settingAt? {α : Type} (entries : List (String × Toml)) (key : String) (default : α)
    (read : Toml → Option α) : Option α :=
  match entries.lookup key with
  | some v => read v
  | none => some default

def rolesOfToml? : Toml → Option (SortedSet String)
  | .array elements => do
    let names ← elements.mapM fun v => match v with
      | .string s => some s
      | _ => none
    return .ofList names
  | _ => none

def lifetimeOfToml? : Toml → Option UInt64
  | .integer n => if 0 ≤ n then some n.toNat.toUInt64 else none
  | _ => none

def flagOfToml? : Toml → Option Bool
  | .boolean b => some b
  | _ => none

/-- Reads settings from the text of a TOML document. -/
def ofToml (s : String) : Except SettingsError Settings :=
  let read : Option Settings := do
    let entries ← Toml.parse? s
    let elevatedRoles ← settingAt? entries "elevated_roles" standard.elevatedRoles rolesOfToml?
    let movePolicy ←
      settingAt? entries "move_policy" standard.movePolicy fun v => v.word?.bind Propagation.ofName?
    let pathLifetime ←
      settingAt? entries "breadcrumb_cache_ttl_secs" standard.pathLifetime lifetimeOfToml?
    let verifyOnLoad ← settingAt? entries "verify_on_load" standard.verifyOnLoad flagOfToml?
    return { elevatedRoles, movePolicy, pathLifetime, verifyOnLoad }
  match read with
  | some s => .ok s
  | none => .error .malformed

/-- Why a file of settings could not be used. -/
inductive FileError where
  | unreadable
  | malformed
  | invalid
deriving DecidableEq, Repr, Inhabited

/-- The wording of an error. -/
def FileError.message : FileError → String
  | .unreadable => "Failed to read configuration file"
  | .malformed => "Failed to parse configuration file"
  | .invalid => "Invalid configuration"

/-- Reads and validates the settings in a file; the bytes of a file that cannot be read are missing.
-/
def ofFile (bytes : Option ByteArray) : Except FileError Settings :=
  match bytes.bind String.fromUTF8? with
  | none => .error .unreadable
  | some text =>
    match ofToml text with
    | .error _ => .error .malformed
    | .ok s =>
      match s.validate with
      | .error _ => .error .invalid
      | .ok () => .ok s

end Settings

end Filing
