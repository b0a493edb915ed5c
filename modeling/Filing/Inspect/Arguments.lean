import Filing.Item.Id

/-!
# Command lines of the inspector

A command line has options of the program, a command, and options of the command.  A value follows
its option, or is joined to it by an equals sign, or directly to a short option; one that begins
with a hyphen must be joined.  No option may be repeated.

A request for help or for the version is met as soon as it is read.  An earlier mistake goes before
it, but a value that was not joined is only checked when the next option begins, or at the end.  The
options of the program end after those of the command.
-/

namespace Filing.Inspect

/-- What to look at in the document of a cabinet. -/
inductive Command where
  | check (snapshot : String)
  | path (snapshot : String) (item root : ItemId) (via : Option ItemId)
  | acl (snapshot : String) (item : ItemId)
deriving DecidableEq, Repr

/-- What a command line asks for. -/
structure Invocation where
  /-- The file of the settings. -/
  config : Option String
  command : Command
deriving DecidableEq, Repr

/-- Why there is nothing to carry out. -/
inductive Stop where
  | help
  | version
  /-- The command line is not well-formed. -/
  | misuse
deriving DecidableEq, Repr

/-! ## Options -/

/-- What an option is for. -/
inductive Purpose where
  | help
  | version
  /-- It switches something on. -/
  | switch
  /-- It names a file. -/
  | file
  /-- It names an item by its identifier. -/
  | item
deriving DecidableEq, Repr

/-- Whether an option takes a value. -/
def Purpose.takesValue : Purpose → Bool
  | .help | .version | .switch => false
  | .file | .item => true

/-- Whether a value is one for the purpose. -/
def Purpose.admits : Purpose → String → Bool
  | .file, value => !value.isEmpty
  | .item, value => (ItemId.parse? value).isSome
  | _, _ => true

/-- An option that a place of the command line admits. -/
structure Flag where
  long : String
  short : Option Char
  purpose : Purpose
deriving DecidableEq, Repr

/-- The options of the program. -/
def programFlags : List Flag :=
  [⟨"config", some 'c', .file⟩, ⟨"verbose", some 'v', .switch⟩, ⟨"help", some 'h', .help⟩,
    ⟨"version", some 'V', .version⟩]

/-- The options of each command. -/
def commandFlags : String → Option (List Flag)
  | "check" => some [⟨"snapshot", some 's', .file⟩, ⟨"help", some 'h', .help⟩]
  | "path" =>
    some [⟨"snapshot", some 's', .file⟩, ⟨"item", none, .item⟩, ⟨"root", none, .item⟩,
      ⟨"via", none, .item⟩, ⟨"help", some 'h', .help⟩]
  | "acl" =>
    some [⟨"snapshot", some 's', .file⟩, ⟨"item", none, .item⟩, ⟨"help", some 'h', .help⟩]
  | _ => none

/-- An option that is not settled: its value has not been checked, or is still to come. -/
structure Pending where
  flag : Flag
  value : Option String

/-- The options that were read so far. -/
structure Options where
  /-- The options whose values were checked, by their long names. -/
  settled : List (String × String)
  pending : Option Pending

namespace Options

def empty : Options := ⟨[], none⟩

/-- The value of a settled option. -/
def value? (o : Options) (long : String) : Option String := o.settled.lookup long

/-- Settles an option, unless it is repeated or the value is not one for it. -/
def enter (o : Options) (flag : Flag) (value : String) : Except Stop Options :=
  if (o.value? flag.long).isSome || !flag.purpose.admits value then .error .misuse
  else .ok { o with settled := (flag.long, value) :: o.settled }

/-- Settles the pending option, which must have its value. -/
def settle (o : Options) : Except Stop Options :=
  match o.pending with
  | none => .ok o
  | some ⟨flag, some value⟩ => { o with pending := none }.enter flag value
  | some ⟨_, none⟩ => .error .misuse

/-- Begins an option, after the pending one is settled.  A joined value is checked at once. -/
def begin (o : Options) (flag : Flag) (joined : Option String) : Except Stop Options := do
  let o ← o.settle
  match joined with
  | some value => if flag.purpose.takesValue then o.enter flag value else .error .misuse
  | none =>
    match flag.purpose with
    | .help => .error .help
    | .version => .error .version
    | .switch => o.enter flag ""
    | .file | .item => .ok { o with pending := some ⟨flag, none⟩ }

/-- Reads an option after its two hyphens. -/
def readLong (flags : List Flag) (o : Options) (cs : List Char) : Except Stop Options :=
  let name := String.ofList (cs.takeWhile (· ≠ '='))
  let joined := match cs.dropWhile (· ≠ '=') with
    | [] => none
    | _ :: value => some (String.ofList value)
  match flags.find? fun f => f.long = name with
  | none => .error .misuse
  | some flag => o.begin flag joined

/-- Reads a group of short options.  The first that takes a value has the rest of the group joined
to it. -/
def readShort (flags : List Flag) (o : Options) : List Char → Except Stop Options
  | [] => .ok o
  | c :: rest =>
    match flags.find? fun f => f.short = some c with
    | none => .error .misuse
    | some flag =>
      if flag.purpose.takesValue then
        o.begin flag <| match rest with
          | [] => none
          | '=' :: value => some (String.ofList value)
          | value => some (String.ofList value)
      else do readShort flags (← o.begin flag none) rest

/-- Takes a word as the value of the pending option, if that waits for one. -/
def take? (o : Options) (word : String) : Option Options :=
  match o.pending with
  | some ⟨flag, none⟩ => some { o with pending := some ⟨flag, some word⟩ }
  | _ => none

/-- Reads options up to a word that is no value, or to a double hyphen. -/
def read (flags : List Flag) (o : Options) : List String → Except Stop (Options × List String)
  | [] => .ok (o, [])
  | arg :: rest =>
    match arg.toList with
    | ['-', '-'] => .ok (o, arg :: rest)
    | '-' :: '-' :: cs => do read flags (← o.readLong flags cs) rest
    | '-' :: c :: cs => do read flags (← o.readShort flags (c :: cs)) rest
    | _ =>
      match o.take? arg with
      | some o => read flags o rest
      | none => .ok (o, arg :: rest)

/-- The identifier of an item among the options. -/
def item? (o : Options) (long : String) : Option ItemId := (o.value? long).bind ItemId.parse?

end Options

/-! ## The command line -/

/-- The command of a name and its options. -/
def command? (name : String) (o : Options) : Option Command :=
  match name with
  | "check" => do return .check (← o.value? "snapshot")
  | "path" => do
    let snapshot ← o.value? "snapshot"
    return .path snapshot (← o.item? "item") (← o.item? "root") (o.item? "via")
  | "acl" => do return .acl (← o.value? "snapshot") (← o.item? "item")
  | _ => none

/-- Reads a command after its name.  A double hyphen may end it. -/
def readCommand (name : String) (flags : List Flag) (args : List String) : Except Stop Command := do
  let (o, rest) ← Options.empty.read flags args
  if rest = [] ∨ rest = ["--"] then
    match command? name (← o.settle) with
    | some command => .ok command
    | none => .error .misuse
  else .error .misuse

/-- The file of the settings: the one that the options name, or else the environment. -/
def configFile (o : Options) (environment : Option String) : Except Stop (Option String) :=
  match (o.value? "config").or environment with
  | none => .ok none
  | some file => if Purpose.file.admits file then .ok (some file) else .error .misuse

/-- Whether help can be given on a list of words: on nothing, on a command, or on asking for help.
-/
def isHelpTopic : List String → Bool
  | [] => true
  | [name] => name = "help" || (commandFlags name).isSome
  | _ => false

/-- Reads a command line. -/
def read (environment : Option String) (args : List String) : Except Stop Invocation := do
  match ← Options.empty.read programFlags args with
  | (_, []) => .error .misuse
  | (_, "help" :: topic) => .error (if isHelpTopic topic then .help else .misuse)
  | (o, name :: rest) =>
    match commandFlags name with
    | none => .error .misuse
    | some flags =>
      let command ← readCommand name flags rest
      let config ← configFile (← o.settle) environment
      return { config, command }

end Filing.Inspect
