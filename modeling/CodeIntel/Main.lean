import CodeIntel.CSharp.Engine
import CodeIntel.Json.Reader
import CodeIntel.Program.Launch
import CodeIntel.Tree.Exchange

/-! The program: what lies below the working folder is read before every line of the standard input
and what a request changes there is written back after it. The parse trees come from a file that the
environment names. -/

open CodeIntel

namespace CodeIntel.Main

/-- The setting that names the file with the parse trees. -/
def treesSetting : String := "SHARPLENS_TREES"

/-- Reads a file or a folder; whatever is neither is left out. -/
partial def readEntry (item : IO.FS.DirEntry) : IO (Option (String × Entry)) := do
  if ← item.path.isDir then
    let children ← (← item.path.readDir).toList.filterMapM readEntry
    return some (item.fileName, children.foldl (fun folder (name, entry) =>
      Entry.put entry folder [name]) (.folder []))
  else if ← item.path.pathExists then
    return some (item.fileName, .file (← IO.FS.readBinFile item.path))
  else return none

/-- Reads what lies below the working folder. -/
def readDisk : IO Disk := do
  let here ← IO.currentDir
  let place := (Path.segments here.toString).filter fun name => name ≠ ""
  let empty := ({ workingPlace := place } : Disk).put place (.folder [])
  let entries ← (← here.readDir).toList.filterMapM readEntry
  return entries.foldl (fun disk (name, entry) => disk.put (place ++ [name]) entry) empty

/-- Writes back the files that differ and those that are new. -/
def writeDisk (before after : Disk) : IO Unit :=
  for place in after.top.files do
    match before.top.find? place, after.top.find? place with
    | some (.file old), some (.file new) =>
      if old.data ≠ new.data then IO.FS.writeBinFile (Path.ofNames place) new
    | none, some (.file new) => do
      IO.FS.createDirAll (Path.ofNames place.dropLast)
      IO.FS.writeBinFile (Path.ofNames place) new
    | _, _ => pure ()

/-- The parse trees of a file. -/
def readTrees (path : Option String) : IO (List (String × Tree)) := do
  match path with
  | none => return []
  | some path =>
    let text ← IO.FS.readFile path
    let value := (Json.Draft.ofText? text).bind (Json.Draft.toJson? Json.deepest)
    return Tree.listOfJson (value.getD .null)

/-- Serves the standard input line by line. -/
partial def serve (engine : Engine) (server : Server) : IO Unit := do
  let line ← (← IO.getStdin).getLine
  if line.isEmpty then return ()
  else
    let disk ← readDisk
    let store := { server.store with disk, now := toString (← IO.monoMsNow) }
    let (responses, server) := { server with store }.serve engine line
    for response in responses do
      IO.println response.toJson.text
    (← IO.getStdout).flush
    writeDisk disk server.store.disk
    serve engine server

end CodeIntel.Main

/-- Runs the program. -/
def main (arguments : List String) : IO UInt32 := do
  let trees ← Main.readTrees (← IO.getEnv Main.treesSetting)
  let engine := CSharp.engine (Tree.lookUp trees)
  let names := CommandLine.descriptorSetting :: CommandLine.levelSetting :: Help.paintSettings
  let settings ← names.mapM fun name => return (name, ← IO.getEnv name)
  let environment (name : String) : Option String := (settings.lookup name).join
  let disk ← Main.readDisk
  let started := Launch.start engine { disk } environment arguments
  Main.writeDisk disk started.disk
  if started.isLogged then
    IO.eprintln ("Starting SharpLens (log level " ++ (Verbosity.ofSetting (environment CommandLine.levelSetting)).text ++ ")")
  match started.launch with
  | .printed text => do
    IO.print text
    return 0
  | .failed failure => do
    IO.eprintln failure.report
    return failure.exitCode.toUInt32
  | .serving server => do
    Main.serve engine server
    return 0
