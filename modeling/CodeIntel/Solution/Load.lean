import CodeIntel.Disk.Scan
import CodeIntel.Solution.Descriptor

/-! A solution on a disk: the descriptor's folder is its root, and every project has the source
files below its own folder. -/

namespace CodeIntel

/-- A project with the source files that belong to it. -/
structure ProjectModel where
  name : String
  language : String
  references : List String
  /-- The absolute path of the folder. -/
  directory : String
  /-- The absolute paths of the source files. -/
  documents : List String
deriving DecidableEq, Repr, Inhabited

/-- A solution with its root folder. -/
structure Solution where
  root : String
  projects : List ProjectModel
deriving DecidableEq, Repr, Inhabited

namespace Solution

/-- The text of a file that an engine needs. -/
def readText (disk : Disk) (path : String) : Except EngineError String :=
  match disk.read path with
  | .error fault => .error (.failed s!"Failed to read {path}: {fault.message}")
  | .ok content =>
    match String.fromUTF8? content with
    | some text => .ok text
    | none => .error (.failed s!"Failed to read {path}: stream did not contain valid UTF-8")

/-- One project on the disk. Its folder has to exist and lie at or below the root. -/
def loadProject (disk : Disk) (root : Place) (language : String) (extensions : List String)
    (p : ProjectDescriptor) : Except EngineError ProjectModel :=
  let directory := Path.join (Path.ofNames root) p.path
  match disk.locate directory with
  | .error _ =>
    .error (.notFound s!"Project directory not found for {p.name}: {directory}")
  | .ok place =>
    if root.isPrefixOf place then
      .ok
        { name := p.name
          language := p.language.getD language
          references := p.references
          directory := Path.ofNames place
          documents := (disk.sources extensions place).map Path.ofNames }
    else .error (.invalidArgument s!"Project {p.name} lies outside the solution directory")

/-- The projects of a descriptor in order; `seen` are the names of those before. -/
def loadProjects (disk : Disk) (root : Place) (language : String) (extensions : List String)
    (seen : List String) : List ProjectDescriptor → Except EngineError (List ProjectModel)
  | [] => .ok []
  | p :: rest => do
    if seen.contains p.name then
      .error (.invalidArgument s!"Duplicate project name in descriptor: {p.name}")
    else
      let model ← loadProject disk root language extensions p
      return model :: (← loadProjects disk root language extensions (p.name :: seen) rest)

/-- The solution of a descriptor on the disk. Projects without a language have the given one, and
their sources are the files with the given extensions. -/
def load (language : String) (extensions : List String) (disk : Disk) (descriptor : String) :
    Except EngineError Solution := do
  match disk.locate descriptor with
  | .error _ => .error (.notFound ("Solution descriptor not found: " ++ descriptor))
  | .ok place =>
    let text ← readText disk (Path.ofNames place)
    let parsed ← Descriptor.parse text
    let root := place.dropLast
    return ⟨Path.ofNames root, ← loadProjects disk root language extensions [] parsed.projects⟩

end Solution

end CodeIntel
