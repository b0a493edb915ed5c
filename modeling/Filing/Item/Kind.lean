/-!
# Kinds of items

An item is a document or a container, and a container has one of nine kinds.  Five kinds belong to
sharing areas; three of these are the reserved roots of such an area, which never move.
-/

namespace Filing

/-- What a container is used for. -/
inductive ContainerKind where
  /-- The home folder of a user. -/
  | root
  /-- A folder that the system manages. -/
  | system
  | folder
  /-- A container for documents only. -/
  | notebook
  /-- The top of the area that a user shares. -/
  | sharedRoot
  /-- The top of the area that a group shares. -/
  | sharedGroupRoot
  /-- The top of an area shared between two users. -/
  | sharedIndividualRoot
  /-- A folder inside a sharing area. -/
  | sharedFolder
  /-- A notebook inside a sharing area. -/
  | sharedNotebook
deriving DecidableEq, Repr, Inhabited

namespace ContainerKind

/-- All kinds. -/
def all : List ContainerKind :=
  [root, system, folder, notebook, sharedRoot, sharedGroupRoot, sharedIndividualRoot, sharedFolder,
    sharedNotebook]

/-- The word for a kind. -/
def name : ContainerKind → String
  | root => "root"
  | system => "system"
  | folder => "folder"
  | notebook => "notebook"
  | sharedRoot => "shared_root"
  | sharedGroupRoot => "shared_group_root"
  | sharedIndividualRoot => "shared_individual_root"
  | sharedFolder => "shared_folder"
  | sharedNotebook => "shared_notebook"

instance : ToString ContainerKind := ⟨name⟩

/-- The kind with a given word. -/
def ofName? (s : String) : Option ContainerKind := all.find? (·.name = s)

/-- Whether the container is for documents only. -/
def isNotebook : ContainerKind → Bool
  | notebook | sharedNotebook => true
  | _ => false

/-- Whether the container is the top of a sharing area. -/
def isSharingRoot : ContainerKind → Bool
  | sharedRoot | sharedGroupRoot | sharedIndividualRoot => true
  | _ => false

/-- Whether the container belongs to a sharing area. -/
def isShared : ContainerKind → Bool
  | sharedRoot | sharedGroupRoot | sharedIndividualRoot | sharedFolder | sharedNotebook => true
  | _ => false

/-- Whether the container may move from one container to another. -/
def isRelocatable : ContainerKind → Bool
  | root | system => false
  | k => !k.isSharingRoot

/-- Whether the grants of elevated roles stop at this container. -/
def isSharedCollection : ContainerKind → Bool
  | sharedNotebook => true
  | _ => false

/-- The kind that the container takes inside a sharing area. -/
def sharedVariant : ContainerKind → ContainerKind
  | folder => sharedFolder
  | notebook => sharedNotebook
  | k => k

theorem ofName?_name (k : ContainerKind) : ofName? k.name = some k := by
  cases k <;> decide

end ContainerKind

/-- A document, or a container of some kind. -/
inductive ItemKind where
  | document
  | container (kind : ContainerKind)
deriving DecidableEq, Repr, Inhabited

namespace ItemKind

/-- The kind of a container. -/
def container? : ItemKind → Option ContainerKind
  | document => none
  | container k => some k

/-- Whether the item can hold others. -/
def isContainer (k : ItemKind) : Bool := k.container?.isSome

/-- Whether the item is a container of a kind that satisfies `p`. -/
def isContainerThat (k : ItemKind) (p : ContainerKind → Bool) : Bool := k.container?.any p

/-- The word for the kind of an item. -/
def name : ItemKind → String
  | document => "document"
  | container k => k.name

end ItemKind

end Filing
