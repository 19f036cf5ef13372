import CodeIntel.Disk.Path

/-! A disk as a value: folders of files, folders and symbolic links below one root, and the folder
that relative paths are taken from. A path is followed name by name; reading and writing go to the
place where it ends. -/

namespace CodeIntel

/-- What stands under a name. -/
inductive Entry where
  | file (content : ByteArray)
  | folder (children : List (String × Entry))
  | link (target : String)
deriving Inhabited

/-- The names that lead from the root to a place. -/
abbrev Place := List String

/-- Why the disk refuses. -/
inductive DiskFault where
  | notFound
  | notAFolder
  | isAFolder
  | tooManyLinks
  /-- A name, or a path as a whole, has too many bytes. -/
  | nameTooLong
  /-- A path has a character that no name can have. -/
  | nullCharacter
deriving DecidableEq, Repr

/-- The wording of a refusal. -/
def DiskFault.message : DiskFault → String
  | .notFound => "No such file or directory (os error 2)"
  | .notAFolder => "Not a directory (os error 20)"
  | .isAFolder => "Is a directory (os error 21)"
  | .tooManyLinks => "Too many levels of symbolic links (os error 40)"
  | .nameTooLong => "File name too long (os error 36)"
  | .nullCharacter => "file name contained an unexpected NUL byte"

namespace Entry

/-- The child of a name. -/
def child? (name : String) : List (String × Entry) → Option Entry
  | [] => none
  | (n, entry) :: rest => if n = name then some entry else child? name rest

/-- Puts a child under its name, in name order. -/
def putChild (name : String) (entry : Entry) : List (String × Entry) → List (String × Entry)
  | [] => [(name, entry)]
  | (n, e) :: rest =>
    if name < n then (name, entry) :: (n, e) :: rest
    else if name = n then (name, entry) :: rest
    else (n, e) :: putChild name entry rest

/-- The entry at a place below this one; links are not followed. -/
def find? : Entry → Place → Option Entry
  | entry, [] => some entry
  | .folder children, name :: rest =>
    match child? name children with
    | some entry => entry.find? rest
    | none => none
  | _, _ :: _ => none

/-- Puts an entry at a place below this one and makes the folders on the way. A file or a link on
the way is left as it is. -/
def put (new : Entry) : Entry → Place → Entry
  | _, [] => new
  | .folder children, name :: rest =>
    .folder (putChild name (put new ((child? name children).getD (.folder [])) rest) children)
  | other, _ :: _ => other

/-- Takes away the entry at a place below this one. -/
def erase : Entry → Place → Entry
  | .folder children, [name] => .folder (children.filter fun (n, _) => n ≠ name)
  | .folder children, name :: rest =>
    match child? name children with
    | some entry => .folder (putChild name (entry.erase rest) children)
    | none => .folder children
  | other, _ => other

/-- Whether an entry is a folder. -/
def isFolder : Entry → Bool
  | .folder _ => true
  | _ => false

end Entry

/-- A disk. A place has one name only, for there are no hard links, and a regular file at it can always be
read and written: nothing is refused for want of a right or of room, and no device fails. Where a writer
may fail as well is said of a `FileWriter`. -/
structure Disk where
  /-- The root folder. -/
  top : Entry := .folder []
  /-- Where relative paths start. -/
  workingPlace : Place := []
deriving Inhabited

namespace Disk

/-- How many links a path may lead through. -/
def mostLinks : Nat := 40

/-- How many bytes a name may have. -/
def mostNameBytes : Nat := 255

/-- How many bytes a path may have. -/
def mostPathBytes : Nat := 4095

/-- The child of a folder under a name that a disk can hold. -/
def lookUp (name : String) (children : List (String × Entry)) : Except DiskFault (Option Entry) :=
  if mostNameBytes < name.utf8ByteSize then .error .nameTooLong
  else .ok (Entry.child? name children)

/-- The children of the folder at a place. -/
def childrenAt (disk : Disk) (place : Place) : Except DiskFault (List (String × Entry)) :=
  match disk.top.find? place with
  | some (.folder children) => .ok children
  | some _ => .error .notAFolder
  | none => .error .notFound

/-- Where a path is followed from: the root, or a place that it is relative to. -/
def startOf (place : Place) (path : String) : Place :=
  if Path.isAbsolute path then [] else place

/-- Follows segments from a place, and tells how many links may still be followed after them. Every
segment has to be looked up in a folder, an empty one and `.` too, so that a slash after the name of
a file is refused. -/
def follow (disk : Disk) (links : Nat) (place : Place) :
    List String → Except DiskFault (Place × Nat)
  | [] => .ok (place, links)
  | segment :: rest =>
    match disk.childrenAt place with
    | .error fault => .error fault
    | .ok children =>
      if segment = "" ∨ segment = "." then follow disk links place rest
      else if segment = ".." then follow disk links place.dropLast rest
      else
        match lookUp segment children with
        | .error fault => .error fault
        | .ok none => .error .notFound
        | .ok (some (.link target)) =>
          match links with
          | 0 => .error .tooManyLinks
          | links + 1 => follow disk links (startOf place target) (Path.segments target ++ rest)
        | .ok (some _) => follow disk links (place ++ [segment]) rest
termination_by segments => (links, segments.length)

/-- Following segments uses up links and gives none back. -/
theorem snd_le_of_follow_eq_ok {disk : Disk} {links : Nat} {place : Place} {segments : List String}
    {stop : Place × Nat} (h : disk.follow links place segments = .ok stop) : stop.2 ≤ links := by
  fun_induction follow disk links place segments with
  | case1 => cases h; exact Nat.le_refl _
  | case2 | case5 | case6 | case7 => cases h
  | case3 | case4 | case9 => rename_i ih; exact ih h
  | case8 => rename_i ih; exact Nat.le_succ_of_le (ih h)

/-- The place where a path of any length ends, with every link followed. -/
def locate (disk : Disk) (path : String) : Except DiskFault Place :=
  if path.contains '\x00' then .error .nullCharacter
  else if path = "" then .error .notFound
  else
    (disk.follow mostLinks (startOf disk.workingPlace path) (Path.segments path)).map Prod.fst

/-- A path that is short enough to be opened. -/
def admissible (path : String) : Except DiskFault Unit :=
  if path.contains '\x00' then .error .nullCharacter
  else if mostPathBytes < path.utf8ByteSize then .error .nameTooLong
  else if path = "" then .error .notFound
  else .ok ()

/-- The place where a path ends, with every link followed; too long a path leads nowhere. -/
def resolve (disk : Disk) (path : String) : Except DiskFault Place := do
  admissible path
  disk.locate path

/-- The absolute path of the place where a path ends. -/
def canonical? (disk : Disk) (path : String) : Option String :=
  match disk.locate path with
  | .ok place => some (Path.ofNames place)
  | .error _ => none

/-- Whether a path leads to anything. -/
def pathExists (disk : Disk) (path : String) : Bool :=
  match disk.resolve path with
  | .ok _ => true
  | .error _ => false

/-- The content of the file at a path. -/
def read (disk : Disk) (path : String) : Except DiskFault ByteArray := do
  match disk.top.find? (← disk.resolve path) with
  | some (.file content) => .ok content
  | some (.folder _) => .error .isAFolder
  | _ => .error .notFound

/-- The place that a write to a path goes to, the path taken from a place: that of the file there, or
a new name in the folder that the path names before it. A link leads a write to where it points, and
it need not lead to anything yet. A path that ends in a slash or in dots can only mean a folder. -/
def writePlaceFrom (disk : Disk) (links : Nat) (place : Place) (path : String) :
    Except DiskFault Place :=
  match Path.lastStep? path with
  | none => .error .isAFolder
  | some step =>
    match _h : disk.follow links (startOf place path) step.before with
    | .error fault => .error fault
    | .ok (folder, left) =>
      match disk.childrenAt folder with
      | .error fault => .error fault
      | .ok children =>
        if step.meansFolder then .error .isAFolder
        else
          match lookUp step.name children with
          | .error fault => .error fault
          | .ok (some (.folder _)) => .error .isAFolder
          | .ok (some (.link target)) =>
            match left with
            | 0 => .error .tooManyLinks
            | left + 1 => disk.writePlaceFrom left folder target
          | .ok _ => .ok (folder ++ [step.name])
termination_by links
decreasing_by
  have := snd_le_of_follow_eq_ok ‹disk.follow links _ _ = _›
  simp at this
  omega

/-- The place that a write to a path goes to. -/
def writePlace (disk : Disk) (path : String) : Except DiskFault Place := do
  admissible path
  disk.writePlaceFrom mostLinks disk.workingPlace path

/-- Puts an entry at a place. -/
def put (disk : Disk) (place : Place) (entry : Entry) : Disk :=
  { disk with top := Entry.put entry disk.top place }

/-- Takes away the entry at a place. -/
def erase (disk : Disk) (place : Place) : Disk :=
  { disk with top := disk.top.erase place }

/-- Writes a file, which takes the place of an earlier one. -/
def write (disk : Disk) (path : String) (content : ByteArray) : Except DiskFault Disk := do
  return disk.put (← disk.writePlace path) (.file content)

/-- The disk after a write that may have been refused. -/
def written (disk : Disk) (path : String) (content : ByteArray) : Disk :=
  match disk.write path content with
  | .ok disk => disk
  | .error _ => disk

end Disk

/-- How a file is written: whether that is refused, in what words, and the disk that is left. -/
abbrev FileWriter := Disk → String → ByteArray → Except String Unit × Disk

/-- The writer of a disk on which a file is written as a whole or not at all. -/
def wholeWriter : FileWriter := fun disk path content =>
  (((disk.write path content).mapError DiskFault.message).map fun _ => (), disk.written path content)

end CodeIntel
