import Filing.Document.Settings
import Filing.Inspect.Arguments
import Filing.Session
import Filing.Text.Quote

/-!
# Reports of the inspector

The inspector reads the document of a cabinet and tells whether it is in order, which path leads
from a root to an item, or who holds grants on an item.
-/

namespace Filing.Inspect

/-- What a run of the program leaves behind. -/
structure Report where
  code : UInt8
  output : String
  errors : String
deriving Repr, Inhabited

/-- Lines of text, each with its end. -/
def lines (l : List String) : String := String.join (l.map (· ++ "\n"))

/-- A run that went well. -/
def success (output : List String) : Report := ⟨0, lines output, ""⟩

/-- A run that ended with an error, after some output. -/
def failure (output : List String) (error : String) : Report :=
  ⟨1, lines output, "Error: " ++ error ++ "\n"⟩

/-- A run that carries out no command. -/
def Stop.report : Stop → Report
  | .help => success []
  | .version => success ["folio-inspect 0.1.0"]
  | .misuse => ⟨2, "", ""⟩

/-- The text of a file that holds one. -/
def textOf (file : String) (bytes : Option ByteArray) : Except String String :=
  match bytes.bind String.fromUTF8? with
  | some text => .ok text
  | none => .error ("Failed to read snapshot " ++ Text.quote file)

/-- Reports whether a document is in order. -/
def check (text : String) (settings : Settings) : Report :=
  match Cabinet.ofDocument text { settings with verifyOnLoad := false } 0 with
  | .error _ => failure [] "Failed to parse snapshot"
  | .ok c =>
    let output :=
      ["items:    " ++ toString c.items.size, "edges:    " ++ toString c.edges.size,
        "deferred: " ++ toString c.deferred.length]
    match c.verify with
    | .ok () => success (output ++ ["status:   ok"])
    | .error d => failure output ("snapshot is inconsistent: " ++ (Failure.inconsistent d).message)

/-- The cabinet of a document that goes through a store. -/
def load (text : String) (settings : Settings) : Except String Cabinet :=
  match Store.put { document := none, settings } text with
  | .error e => .error e.message
  | .ok store =>
    match store.load 0 with
    | .error _ => .error "Failed to load snapshot"
    | .ok none => .error "Snapshot is empty"
    | .ok (some c) => .ok c

/-- Reports the path from a root to an item. -/
def path (c : Cabinet) (lifetime : UInt64) (item root : ItemId) (via : Option ItemId) : Report :=
  let resolver := Resolver.new lifetime
  let found := match via with
    | some via => (resolver.resolveVia c item via root 0).1
    | none => (resolver.resolve c ⟨item, root, none⟩ 0).1
  match found with
  | .error e => failure [] e.message
  | .ok p =>
    if p.isEmpty then success ["no path from " ++ root.text ++ " to " ++ item.text]
    else success [" > ".intercalate (p.names c)]

/-- Reports the grants on an item. -/
def acl (c : Cabinet) (item : ItemId) : Report :=
  match c.item item with
  | .error e => failure [] e.message
  | .ok i =>
    if i.access.isEmpty then success ["(no entries)"] else success (i.access.toList.map Grant.text)

/-- Carries out a command on the bytes of its file. -/
def Command.report (settings : Settings) (bytes : Option ByteArray) : Command → Report
  | .check file =>
    match textOf file bytes with
    | .error e => failure [] e
    | .ok text => Inspect.check text settings
  | .path file item root via =>
    match textOf file bytes >>= (load · settings) with
    | .error e => failure [] e
    | .ok c => Inspect.path c settings.pathLifetime item root via
  | .acl file item =>
    match textOf file bytes >>= (load · settings) with
    | .error e => failure [] e
    | .ok c => Inspect.acl c item

/-- The file that a command reads. -/
def Command.file : Command → String
  | .check file => file
  | .path file _ _ _ => file
  | .acl file _ => file

/-- Runs the program.  `readFile` gives the bytes of a file, if it can be read. -/
def run {m : Type → Type} [Monad m] (readFile : String → m (Option ByteArray))
    (environment : Option String) (args : List String) : m Report :=
  match read environment args with
  | .error stop => pure stop.report
  | .ok { config, command } => do
    let settings : Except Settings.FileError Settings ← match config with
      | none => pure (.ok .standard)
      | some file => do
        let bytes ← readFile file
        pure (Settings.ofFile bytes)
    match settings with
    | .error e => return failure [] e.message
    | .ok settings => do
      let bytes ← readFile command.file
      return command.report settings bytes

end Filing.Inspect
