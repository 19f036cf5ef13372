import CodeIntel.Disk.Basic

/-! Making folders and files that are not there. What is there already stays as it is, and what was
made before something is refused stays too. -/

namespace CodeIntel.Disk

/-- A disk after some changes, and why the last of them was refused. -/
structure Attempt where
  disk : Disk
  fault : Option DiskFault := none

/-- The attempt that a single change is. -/
def Attempt.of (before : Disk) : Except DiskFault Disk → Attempt
  | .ok disk => ⟨disk, none⟩
  | .error fault => ⟨before, some fault⟩

/-- Goes on after an attempt that succeeded. -/
def Attempt.andThen (attempt : Attempt) (next : Disk → Attempt) : Attempt :=
  match attempt.fault with
  | none => next attempt.disk
  | some _ => attempt

/-- Makes a folder if none stands at its path; all folders above it are there. -/
def makeFolder (disk : Disk) (path : String) : Except DiskFault Disk :=
  match disk.resolve path with
  | .ok place => do
    let _ ← disk.childrenAt place
    return disk
  | .error .notFound =>
    match Path.lastStep? path with
    | none => .error .notFound
    | some step => do
      let (folder, _) ← disk.follow mostLinks (startOf disk.workingPlace path) step.before
      match ← lookUp step.name (← disk.childrenAt folder) with
      | none => .ok (disk.put (folder ++ [step.name]) (.folder []))
      | some _ => .error .notAFolder
  | .error fault => .error fault

/-- Makes a folder, given with the folders above it from the nearest on. Those above are made where
the folder itself has nowhere to stand. -/
def makeFoldersUpTo (disk : Disk) : List String → Attempt
  | [] => ⟨disk, none⟩
  | path :: above =>
    match disk.makeFolder path with
    | .error .notFound =>
      (disk.makeFoldersUpTo above).andThen fun disk => .of disk (disk.makeFolder path)
    | made => .of disk made

/-- Makes a folder and the folders above it. -/
def makeFolders (disk : Disk) (path : String) : Attempt :=
  disk.makeFoldersUpTo (Path.ancestors path)

/-- Opens a file to add to it; it is made if it is not there. -/
def openToAdd (disk : Disk) (path : String) : Except DiskFault Disk := do
  let place ← disk.writePlace path
  if (disk.top.find? place).isSome then return disk
  else return disk.put place (.file ByteArray.empty)

/-- Opens a log of a name in a folder; where that fails the folder is made first. -/
def openLog (disk : Disk) (folder name : String) : Attempt :=
  let path := Path.join folder name
  match disk.openToAdd path with
  | .ok disk => ⟨disk, none⟩
  | .error _ =>
    (disk.makeFolders ((Path.parent? path).getD "")).andThen fun disk =>
      .of disk (disk.openToAdd path)

end CodeIntel.Disk
