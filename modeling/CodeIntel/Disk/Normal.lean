import CodeIntel.Disk.Basic

/-! The normal form of a path inside a root folder: the names that lead to it from the root, with a
slash between neighbours. Backslashes count as slashes. -/

namespace CodeIntel.Disk

/-- The absolute path with links followed as far as the disk knows it: the place itself, else its
folder and the last name, else the path as it is. -/
def settled (disk : Disk) (path : String) : String :=
  match disk.canonical? path with
  | some canonical => canonical
  | none =>
    match Path.parent? path, Path.fileName? path with
    | some parent, some name =>
      match disk.canonical? parent with
      | some canonical => Path.join canonical name
      | none => path
    | _, _ => path

/-- A path with slashes only. -/
def slashed (path : String) : String :=
  String.ofList (path.toList.map fun c => if c = '\\' then '/' else c)

/-- The normal form of a path against a root; nothing when it leads outside. -/
def normal? (disk : Disk) (root path : String) : Option String :=
  let path := slashed path
  let relative :=
    if Path.isAbsolute path then Path.relativeTo? root (disk.settled path)
    else some (Path.parts path)
  (relative.bind (Path.collapse? [])).map Path.ofRelative

end CodeIntel.Disk
