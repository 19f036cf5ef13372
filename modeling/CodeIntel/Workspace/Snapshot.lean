import CodeIntel.Disk.Normal
import CodeIntel.Source.Document
import CodeIntel.Workspace.Keyed

/-! A snapshot is a workspace as of one version: its projects and documents. A snapshot does not
change; whatever changes the workspace publishes another one. Callers name documents by any spelling
of their paths. -/

namespace CodeIntel

/-- A project of a snapshot. -/
structure Project where
  name : String
  language : String
  references : List String
  /-- The folder below the root; a point for the root itself. -/
  directory : String
  /-- The paths of the documents at or below the folder. -/
  documents : List String
deriving DecidableEq, Repr, Inhabited

/-- Whether a path lies below a folder given in normal form. -/
def isBelow (directory path : String) : Bool :=
  directory == "." || (directory.toList ++ ['/']).isPrefixOf path.toList

/-- Whether a document belongs to a project. -/
def Project.contains (p : Project) (path : String) : Bool := isBelow p.directory path

/-- A workspace as of one version. -/
structure Snapshot where
  /-- Tells one load of the workspace from another. -/
  id : Nat
  version : Nat
  /-- The absolute path of the root folder. -/
  root : String
  /-- The absolute path of the descriptor. -/
  descriptor : String
  projects : List Project
  /-- The documents by their paths below the root. -/
  documents : Keyed Document
  /-- The moment at which the snapshot was made. -/
  publishedAt : String
deriving DecidableEq, Repr, Inhabited

/-- A position of a document, in bytes too. -/
structure Anchor where
  path : String
  offset : Nat
  position : Position
deriving DecidableEq, Repr, Inhabited

/-- A range of a document, in bytes too. -/
structure AnchorRange where
  path : String
  span : Span
  range : Range
deriving DecidableEq, Repr, Inhabited

namespace Snapshot

/-- The document of a path in normal form. -/
def document? (s : Snapshot) (path : String) : Option Document := s.documents.get? path

/-- All documents in path order. -/
def allDocuments (s : Snapshot) : List Document := s.documents.values

/-- How many documents there are. -/
def documentCount (s : Snapshot) : Nat := s.documents.length

/-- The normal form of a path that a caller gave. -/
def normalPath (disk : Disk) (root path : String) : Except CoordinateError String :=
  match disk.normal? root path with
  | some normal => .ok normal
  | none => .error (.outsideRoot path)

/-- The document of any spelling of its path. -/
def locate (s : Snapshot) (disk : Disk) (path : String) : Except CoordinateError Document := do
  let normal ← normalPath disk s.root path
  match s.document? normal with
  | some document => .ok document
  | none => .error (.documentNotFound normal)

/-- The position of a document that a caller gave. -/
def anchor (s : Snapshot) (disk : Disk) (path : String) (p : Position) :
    Except CoordinateError Anchor := do
  let normal ← normalPath disk s.root path
  match s.document? normal with
  | none => .error (.documentNotFound normal)
  | some document => do
    let offset ← document.offsetAt p
    return ⟨normal, offset, p⟩

/-- The range of a document that a caller gave. -/
def anchorRange (s : Snapshot) (disk : Disk) (path : String) (start stop : Position) :
    Except CoordinateError AnchorRange := do
  if stop < start then .error (.invertedRange start stop)
  else
    let first ← s.anchor disk path start
    match s.document? first.path with
    | none => .error (.documentNotFound first.path)
    | some document => do
      let last ← document.offsetAt stop
      return ⟨first.path, ⟨first.offset, last⟩, ⟨start, stop⟩⟩

end Snapshot

end CodeIntel
