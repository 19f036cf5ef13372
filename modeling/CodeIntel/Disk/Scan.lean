import CodeIntel.Disk.Basic

/-! Listing the source files below a place: every regular file with a wanted extension, without
looking into hidden folders and folders of build output. The place itself is looked into whatever
its name. -/

namespace CodeIntel

/-- Names of folders that hold build output. -/
def buildFolders : List String := ["bin", "obj", "node_modules"]

/-- Whether a folder of this name is passed over. -/
def isPassedOver (name : String) : Bool :=
  name.toList.head? == some '.' || buildFolders.contains name

namespace Entry

mutual

/-- The places of all files below an entry, relative to it; links are not followed. -/
def files : Entry → List Place
  | .file _ => [[]]
  | .folder children => filesAmong children
  | .link _ => []

/-- The places of all files below the children of a folder. -/
def filesAmong : List (String × Entry) → List Place
  | [] => []
  | (name, entry) :: rest =>
    (if entry.isFolder && isPassedOver name then [] else entry.files.map (name :: ·)) ++
      filesAmong rest

end

end Entry

/-- The source files at and below a place, in ascending order. -/
def Disk.sources (disk : Disk) (extensions : List String) (place : Place) : List Place :=
  match disk.top.find? place with
  | none => []
  | some entry =>
    let found := (entry.files.map (place ++ ·)).filter fun file =>
      Path.hasExtension extensions (Path.ofNames file)
    found.mergeSort fun a b => decide (List.le a b)

end CodeIntel
