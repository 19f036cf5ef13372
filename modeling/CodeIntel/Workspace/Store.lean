import CodeIntel.Analysis.Engine
import CodeIntel.Text.Utf8

/-! The store holds the disk and the snapshot that is published. Loading and syncing have two parts:
the first works out a successor and publishes nothing, the second publishes it. A sync or an edit is
published only while the snapshot that it was worked out on is still the published one. -/

namespace CodeIntel

/-- The disk and the published workspace. -/
structure Store where
  disk : Disk
  published : Option Snapshot := none
  /-- No load so far has drawn this number or a greater one. -/
  nextId : Nat := 0
  /-- The moment, as the outer layer tells it. -/
  now : String := ""
deriving Inhabited

/-- What a load published. -/
structure LoadSummary where
  workspaceId : Nat
  projectCount : Nat
  documentCount : Nat
  version : Nat
  projects : List String
deriving DecidableEq, Repr, Inhabited

/-- What a sync found, and the version that holds it. -/
structure SyncReport where
  added : Nat
  updated : Nat
  removed : Nat
  totalSynced : Nat
  version : Nat
deriving DecidableEq, Repr, Inhabited

/-- A load that is not published. -/
structure PendingLoad where
  snapshot : Snapshot
deriving DecidableEq, Repr, Inhabited

/-- A sync that is not published: what it was worked out on, what follows if anything changed, and
what it found. -/
structure PendingSync where
  base : Snapshot
  successor : Option Snapshot
  report : SyncReport
deriving DecidableEq, Repr, Inhabited

/-- What is published. -/
structure WorkspaceStatus where
  loaded : Bool
  workspaceId : Option Nat
  version : Option Nat
  projectCount : Nat
  documentCount : Nat
  publishedAt : Option String
deriving DecidableEq, Repr, Inhabited

namespace Solution

/-- The paths of all source files of a solution, ascending and each once. -/
def memberPaths (disk : Disk) (solution : Solution) : Except Error (List String) := do
  let documents := solution.projects.flatMap ProjectModel.documents
  let normal ← documents.mapM fun document =>
    (Snapshot.normalPath disk solution.root document).mapError CoordinateError.toError
  return ascending normal

/-- The projects of a solution with their documents. -/
def describe (disk : Disk) (solution : Solution) (documents : Keyed Document) :
    Except Error (List Project) :=
  solution.projects.mapM fun model => do
    let normal ← (Snapshot.normalPath disk solution.root model.directory).mapError
      CoordinateError.toError
    let directory := if normal = "" then "." else normal
    pure
      { name := model.name
        language := model.language
        references := model.references
        directory
        documents := documents.keys.filter (isBelow directory) }

end Solution

/-- The text of a source file; nothing when there is no such file. -/
def Disk.readSource (disk : Disk) (path : String) : Except Error (Option String) :=
  match disk.read path with
  | .ok bytes =>
    match Text.ofBytes bytes with
    | .ok text => .ok (some text)
    | .error offset =>
      .error (.invalidArgument
        s!"Document is not valid UTF-8: {path} (invalid byte at offset {offset})")
  | .error .notFound => .ok none
  | .error fault => .error (.internal s!"Failed to read {path}: {fault.message}")

/-- The documents of some paths below a root, as of the first version. -/
def Disk.readDocuments (disk : Disk) (root : String) (paths : List String) :
    Except Error (Keyed Document) :=
  paths.foldlM
    (fun (documents : Keyed Document) path => do
      match ← disk.readSource (Path.join root path) with
      | some text => return documents.insert path ⟨path, text, 0⟩
      | none => return documents)
    []

/-- What became of a document since it was last looked at. -/
inductive Change where
  | none
  | added (text : String)
  | updated (text : String)
  | removed
deriving DecidableEq, Repr

/-- The change of a document: what is no longer a source file of a project is removed, whatever is
on the disk. -/
def Change.of (isMember : Bool) (existing : Option Document) (onDisk : Option String) : Change :=
  match existing, onDisk with
  | .none, some text => .added text
  | some _, .none => .removed
  | some document, some text =>
    if !isMember then .removed
    else if document.differsFrom text then .updated text
    else .none
  | .none, .none => .none

namespace SyncReport

/-- Counts one change. -/
def count (report : SyncReport) : Change → SyncReport
  | .none => report
  | .added _ => { report with added := report.added + 1 }
  | .updated _ => { report with updated := report.updated + 1 }
  | .removed => { report with removed := report.removed + 1 }

/-- Adds up what was counted. -/
def summed (report : SyncReport) : SyncReport :=
  { report with totalSynced := report.added + report.updated + report.removed }

end SyncReport

/-- Makes one change to the documents; what is new is as of the given version. -/
def Change.applyTo (documents : Keyed Document) (version : Nat) (path : String) :
    Change → Keyed Document
  | .none => documents
  | .added text => documents.insert path ⟨path, text, version⟩
  | .updated text => documents.insert path ⟨path, text, version⟩
  | .removed => documents.erase path

namespace Store

/-- The published snapshot. -/
def current (store : Store) : Except Error Snapshot :=
  match store.published with
  | some snapshot => .ok snapshot
  | none => .error (.notFound "No workspace loaded. Call LoadWorkspace first.")

/-- The store with another snapshot published. -/
def publish (store : Store) (snapshot : Snapshot) : Store :=
  { store with published := some snapshot }

/-- Works out a load of a descriptor under a number that no load before it has drawn. -/
def prepareLoad (engine : Engine) (store : Store) (id : Nat) (descriptor : String) :
    Outcome Error PendingLoad :=
  if store.disk.pathExists descriptor then do
    let solution ← (engine.loadSolution store.disk descriptor).mapError EngineError.toError
    Outcome.ofExcept do
      let members ← solution.memberPaths store.disk
      let documents ← store.disk.readDocuments solution.root members
      let projects ← solution.describe store.disk documents
      pure
        { snapshot :=
            { id
              version := 0
              root := solution.root
              descriptor := (store.disk.canonical? descriptor).getD descriptor
              projects
              documents
              publishedAt := store.now } }
  else .failed (.notFound ("Solution descriptor not found: " ++ descriptor))

/-- Publishes a load. -/
def commitLoad (store : Store) (pending : PendingLoad) : LoadSummary × Store :=
  let snapshot := pending.snapshot
  ({ workspaceId := snapshot.id
     projectCount := snapshot.projects.length
     documentCount := snapshot.documentCount
     version := snapshot.version
     projects := snapshot.projects.map Project.name },
    store.publish snapshot)

/-- Loads a descriptor and publishes what is found, with nothing in between. -/
def load (engine : Engine) (store : Store) (id : Nat) (descriptor : String) :
    Except Error LoadSummary × Store :=
  match (store.prepareLoad engine id descriptor).settled with
  | .error error => (.error error, store)
  | .ok pending =>
    let (summary, store) := store.commitLoad pending
    (.ok summary, store)

/-- The paths that a sync looks at: the normal forms of those given, or without any all source files
and all documents. -/
def syncScope (disk : Disk) (base : Snapshot) (members : List String) :
    Option (List String) → List String
  | some (path :: paths) =>
    ascending <| (path :: paths).filterMap fun given =>
      match disk.normal? base.root given with
      | some "" => none
      | found => found
  | _ => ascending (members ++ base.documents.keys)

/-- Looks at one path and makes the change that it needs. -/
def syncPath (disk : Disk) (base : Snapshot) (members : List String)
    (sofar : Keyed Document × SyncReport) (path : String) :
    Except Error (Keyed Document × SyncReport) := do
  let isMember := members.contains path
  let existing := base.documents.get? path
  if !isMember && existing.isNone then return sofar
  else
    let onDisk ← disk.readSource (Path.join base.root path)
    let change := Change.of isMember existing onDisk
    return (change.applyTo sofar.1 (base.version + 1) path, sofar.2.count change)

/-- Works out a sync of some paths or, without any, of everything. -/
def prepareSync (engine : Engine) (store : Store) (paths : Option (List String)) :
    Outcome Error PendingSync := do
  let base ← Outcome.ofExcept store.current
  let solution ← (engine.loadSolution store.disk base.descriptor).mapError EngineError.toError
  Outcome.ofExcept do
    let members ← solution.memberPaths store.disk
    let scope := syncScope store.disk base members paths
    let (documents, counted) ← scope.foldlM (syncPath store.disk base members)
      (base.documents, ⟨0, 0, 0, 0, base.version⟩)
    let report := counted.summed
    if report.totalSynced = 0 then return ⟨base, none, report⟩
    else
      let projects ← solution.describe store.disk documents
      let successor :=
        { base with
          version := base.version + 1
          projects
          documents
          publishedAt := store.now }
      return ⟨base, some successor, report⟩

/-- The published snapshot if it is still the one of the given load and version. -/
def ensureCurrent (store : Store) (id version : Nat) : Except Error Snapshot := do
  let snapshot ← store.current
  if snapshot.id ≠ id then .error .reloaded
  else if snapshot.version ≠ version then .error (.conflict version snapshot.version)
  else return snapshot

/-- Publishes a sync if the snapshot that it was worked out on is still published. A sync without
changes has nothing to publish. -/
def commitSync (store : Store) (pending : PendingSync) : Except Error SyncReport × Store :=
  match pending.successor with
  | none => (.ok pending.report, store)
  | some successor =>
    match store.ensureCurrent pending.base.id pending.base.version with
    | .error error => (.error error, store)
    | .ok _ => (.ok { pending.report with version := successor.version }, store.publish successor)

/-- Syncs some paths or everything and publishes what changed, with nothing in between. -/
def sync (engine : Engine) (store : Store) (paths : Option (List String)) :
    Except Error SyncReport × Store :=
  match (store.prepareSync engine paths).settled with
  | .error error => (.error error, store)
  | .ok pending => store.commitSync pending

/-- All edits of each document, in the order in which they were given. -/
def grouped (disk : Disk) (root : String) (edits : List DocumentEdit) :
    Except Error (Keyed (List TextEdit)) :=
  edits.foldlM
    (fun (groups : Keyed (List TextEdit)) edit => do
      let path ← (Snapshot.normalPath disk root edit.path).mapError CoordinateError.toError
      return groups.insert path ((groups.get? path).getD [] ++ edit.edits))
    []

/-- The documents that edits change, before and after. -/
def edited (snapshot : Snapshot) (groups : Keyed (List TextEdit)) :
    Except Error (List (Document × Document)) :=
  groups.mapM fun (path, edits) => do
    match snapshot.document? path with
    | none => .error (CoordinateError.documentNotFound path).toError
    | some document => do
      let after ← document.applyEdits edits (snapshot.version + 1)
      return (document, after)

/-- Writes documents back. When a write is refused those before it are written as they were, and the
rest is left alone. -/
def writeBackBy (writer : FileWriter) (root : String) (written : List Document) (disk : Disk) :
    List (Document × Document) → Except Error Unit × Disk
  | [] => (.ok (), disk)
  | (before, after) :: rest =>
    match writer disk (Path.join root after.path) after.text.toUTF8 with
    | (.ok _, disk) => writeBackBy writer root (written ++ [before]) disk rest
    | (.error message, disk) =>
      (.error (.internal s!"Failed to write {after.path}: {message}"),
        written.foldl
          (fun disk document => (writer disk (Path.join root document.path) document.text.toUTF8).2)
          disk)

def writeBack (root : String) (written : List Document) (disk : Disk)
    (changed : List (Document × Document)) : Except Error Unit × Disk :=
  writeBackBy wholeWriter root written disk changed

/-- The documents with some put in the place of those before. -/
def replaced (documents : Keyed Document) (changed : List (Document × Document)) : Keyed Document :=
  changed.foldl (fun documents (_, after) => documents.insert after.path after) documents

/-- Makes edits that were worked out on the snapshot of the given load and version, writes the
changed documents back, and publishes the next version. -/
def applyEditsBy (writer : FileWriter) (store : Store) (id version : Nat)
    (edits : List DocumentEdit) : Except Error Nat × Store :=
  if edits.all fun edit => edit.edits.isEmpty then
    (.error (.invalidArgument "No edits to apply"), store)
  else
    let worked : Except Error (Snapshot × List (Document × Document)) := do
      let snapshot ← store.ensureCurrent id version
      let groups ← grouped store.disk snapshot.root edits
      return (snapshot, ← edited snapshot groups)
    match worked with
    | .error error => (.error error, store)
    | .ok (snapshot, changed) =>
      match writeBackBy writer snapshot.root [] store.disk changed with
      | (.error error, disk) => (.error error, { store with disk })
      | (.ok _, disk) =>
        let next :=
          { snapshot with
            version := snapshot.version + 1
            documents := replaced snapshot.documents changed
            publishedAt := store.now }
        (.ok next.version, { store with disk }.publish next)

def applyEdits (store : Store) (id version : Nat) (edits : List DocumentEdit) :
    Except Error Nat × Store :=
  applyEditsBy wholeWriter store id version edits

/-- What is published. -/
def status (store : Store) : WorkspaceStatus :=
  match store.published with
  | some snapshot =>
    { loaded := true
      workspaceId := some snapshot.id
      version := some snapshot.version
      projectCount := snapshot.projects.length
      documentCount := snapshot.documentCount
      publishedAt := some snapshot.publishedAt }
  | none => ⟨false, none, none, 0, 0, none⟩

end Store

end CodeIntel
