import Filing.Breadcrumb
import Filing.Cabinet.Deletion
import Filing.Document.Cabinet
import Filing.Placement

/-!
# Sessions

A session is what a caller works with over time: one cabinet, a resolver of breadcrumbs, and a store
that keeps the document of a cabinet.  The session hands out epochs, so that no two cabinets of a
session, copies included, share one.

A transaction either keeps all changes of the cabinet or none.  What the resolver learnt in between
stays, but the restored cabinet has a new epoch, so no path found in the meantime is used for it.
-/

namespace Filing

/-- Keeps the document of one cabinet. -/
structure Store where
  document : Option String
  /-- The settings of the cabinets that come out of the store. -/
  settings : Settings

namespace Store

/-- Replaces the document.  It must be JSON of some kind, nested at most 127 deep. -/
def put (s : Store) (text : String) : Except Failure Store :=
  if (Json.parse? text).any (·.fits 127) then .ok { s with document := some text }
  else .error .rejectedDocument

/-- The cabinet that is kept, if there is one. -/
def load (s : Store) (epoch : Epoch) : Except Failure (Option Cabinet) :=
  match s.document with
  | none => .ok none
  | some text => (Cabinet.ofDocument text s.settings epoch).map some

/-- The size of the document in bytes. -/
def size (s : Store) : Nat := (s.document.map String.utf8ByteSize).getD 0

end Store

structure Session where
  /-- The settings with which the session began. -/
  settings : Settings
  cabinet : Cabinet
  resolver : Resolver
  store : Store
  nextEpoch : Epoch

namespace Session

/-- Begins a session with the cabinet of a document, or with an empty one. -/
def begin (settings storeSettings : Settings) (document : Option String) :
    Except Failure Session := do
  let cabinet ← match document with
    | some text => Cabinet.ofDocument text settings 0
    | none => .ok (.empty settings 0)
  .ok
    { settings, cabinet, resolver := .new settings.pathLifetime
      store := { document := none, settings := storeSettings }, nextEpoch := 1 }

/-- Hands out an epoch. -/
def freshEpoch (s : Session) : Epoch × Session :=
  (s.nextEpoch, { s with nextEpoch := s.nextEpoch + 1 })

/-- Goes on with another cabinet. -/
def withCabinet (s : Session) (c : Cabinet) : Session := { s with cabinet := c }

/-- A copy of the cabinet. -/
def copy (s : Session) : Cabinet × Session :=
  let (epoch, s) := s.freshEpoch
  ({ s.cabinet with epoch }, s)

/-- Changes the cabinet.  What was changed before a failure stays changed. -/
def edit {α : Type} (s : Session) (e : Edit α) : Except Failure α × Session :=
  let (r, c) := e.run.run s.cabinet
  (r, s.withCabinet c)

/-- Runs `body`, and takes back all changes of the cabinet if it fails. -/
def transaction {ε α : Type} (s : Session) (body : Session → Except ε α × Session) :
    Except ε α × Session :=
  let (before, s) := s.copy
  match body s with
  | (.ok a, s) => (.ok a, s)
  | (.error e, s) => (.error e, s.withCabinet before)

/-- Changes the cabinet, and takes the change back if it fails. -/
def atomically {α : Type} (s : Session) (e : Edit α) : Except Failure α × Session :=
  s.transaction (·.edit e)

/-- Goes on with a copy of the cabinet. -/
def clone (s : Session) : Session :=
  let (c, s) := s.copy
  s.withCabinet c

/-- Goes on with the cabinet of a document. -/
def load (s : Session) (text : String) (settings : Settings) : Except Failure Session := do
  let (epoch, s) := s.freshEpoch
  return s.withCabinet (← Cabinet.ofDocument text settings epoch)

/-- Writes the cabinet and goes on with what is read back. -/
def reload (s : Session) (settings : Settings) : Except Failure Session :=
  s.load s.cabinet.document settings

/-- Puts the cabinet into the store. -/
def commit (s : Session) : Session :=
  { s with store := { s.store with document := some s.cabinet.document } }

/-- Goes on with the cabinet in the store, if there is one. -/
def loadStored (s : Session) : Except Failure (Option Session) := do
  let (epoch, s) := s.freshEpoch
  return (← s.store.load epoch).map s.withCabinet

/-- Puts a document into the store. -/
def importDocument (s : Session) (text : String) : Except Failure Session := do
  return { s with store := ← s.store.put text }

end Session

end Filing
