import CodeIntel.Text.Basic

/-! Paths as text and the parts that they are read as. Repeated slashes, a slash at the end and `.`
after the first part say nothing and are dropped; `..` is kept, since what it means depends on the
disk. -/

namespace CodeIntel.Path

/-- A part of a path. -/
inductive Part where
  /-- The slash at the front of an absolute path. -/
  | root
  /-- A `.` at the front of a relative path. -/
  | here
  /-- A `..`. -/
  | up
  | name (text : String)
deriving DecidableEq, Repr

/-- The texts between the slashes of a path, the empty ones too. -/
def segments (path : String) : List String :=
  (Text.pieces '/' path.toList).map String.ofList

/-- Whether a path starts at the root of the disk. -/
def isAbsolute (path : String) : Bool := path.toList.head? == some '/'

/-- What a segment after the first says. -/
def part? (segment : String) : Option Part :=
  if segment = "" ∨ segment = "." then none
  else if segment = ".." then some .up
  else some (.name segment)

/-- The parts of a path. -/
def parts (path : String) : List Part :=
  if isAbsolute path then .root :: (segments path).filterMap part?
  else
    match segments path with
    | "." :: rest => .here :: rest.filterMap part?
    | all => all.filterMap part?

/-- The absolute path that leads through folders of the given names. -/
def ofNames (names : List String) : String := "/" ++ String.intercalate "/" names

/-- A path taken from a folder: an absolute one stands for itself. -/
def join (folder path : String) : String :=
  if isAbsolute path then path
  else if folder = "" ∨ folder.toList.getLast? = some '/' then folder ++ path
  else folder ++ "/" ++ path

/-- The last name of a path; nothing when the path ends in something else. -/
def fileName? (path : String) : Option String :=
  match (parts path).getLast? with
  | some (.name text) => some text
  | _ => none

/-- Whether a segment after the first says nothing. -/
def isIdle (segment : String) : Bool := segment == "" || segment == "."

/-- Segments without those at their end that say nothing; the first one stays. -/
def withoutIdleEnd : List String → List String
  | [] => []
  | first :: rest => first :: (rest.reverse.dropWhile isIdle).reverse

/-- The path that segments spell. -/
def ofSegments (segments : List String) : String :=
  if segments = [""] then "/" else String.intercalate "/" segments

/-- The path without its last part; nothing for the root and the empty path. What stands before that
part stays as it is written. -/
def parent? (path : String) : Option String :=
  match parts path with
  | [] | [.root] => none
  | _ => some (ofSegments (withoutIdleEnd (withoutIdleEnd (segments path)).dropLast))

/-- A path, its parent, the parent of that and so on, without the empty path. -/
def ancestors (path : String) : List String := go path (parts path).length
where
  /-- A parent has one part less. -/
  go (path : String) : Nat → List String
    | 0 => []
    | left + 1 => path :: go ((parent? path).getD "") left

/-- The last segment of a path that is not empty, with what stands before it. -/
structure LastStep where
  before : List String
  name : String
  /-- Whether a slash follows the name. -/
  hasSlash : Bool
deriving DecidableEq, Repr

/-- Whether a last step can only mean a folder. -/
def LastStep.meansFolder (step : LastStep) : Bool :=
  step.hasSlash || step.name == "." || step.name == ".."

/-- The last step of a path; nothing for one of slashes only. -/
def lastStep? (path : String) : Option LastStep :=
  let backwards := (segments path).reverse
  match backwards.dropWhile (· == "") with
  | [] => none
  | name :: before => some ⟨before.reverse, name, backwards.head? == some ""⟩

/-- The text after the last point of a name; a point at the front does not count. -/
def extensionOf? (name : String) : Option String :=
  match (Text.pieces '.' name.toList).reverse with
  | [] | [_] | [_, []] => none
  | last :: _ => some (String.ofList last)

/-- The extension of the last name of a path. -/
def extension? (path : String) : Option String := (fileName? path).bind extensionOf?

/-- Whether a path has one of the given extensions, up to the case of ASCII letters. -/
def hasExtension (extensions : List String) (path : String) : Bool :=
  match extension? path with
  | some extension => extensions.any fun wanted => Text.sameIgnoringCase wanted extension
  | none => false

/-- The parts that lead from one absolute path to another: what both start with is dropped, a `..`
for each part left of the first, then the rest of the second. Nothing when the first has a `..`
where the two part. -/
def between? : (base path : List Part) → Option (List Part)
  | [], path => some path
  | base, [] => some (base.map fun _ => .up)
  | b :: base, p :: path =>
    if p = b then between? base path
    else if b = .up then none
    else some ((b :: base).map (fun _ => .up) ++ p :: path)

/-- The parts of a path that lead to it from a base. Nothing when there is no way to tell; an
absolute path stands for itself against a relative base. -/
def relativeTo? (base path : String) : Option (List Part) :=
  if isAbsolute base then between? (parts base) (parts path) else some (parts path)

/-- Collapses `..` with the name before it. Nothing when a `..` is left over or the path turns out
to be absolute: it then leads outside. -/
def collapse? (names : List String) : List Part → Option (List String)
  | [] => some names
  | .here :: rest => collapse? names rest
  | .up :: rest => if names = [] then none else collapse? names.dropLast rest
  | .name text :: rest => collapse? (names ++ [text]) rest
  | .root :: _ => none

/-- The names of a path in the form that answers use. -/
def ofRelative (names : List String) : String := String.intercalate "/" names

end CodeIntel.Path
