import CodeIntel.Disk.Create
import CodeIntel.Program.Help
import CodeIntel.Server.Run

/-! The program from its start to its end: it reads its command line, opens its log, loads a
descriptor if it is given one, and serves its input. -/

namespace CodeIntel

/-- Why the program ends with an error of its own. -/
inductive Failure where
  | misuse (error : UsageError)
  /-- The path of the log file ends in no name. -/
  | noLogName (path : String)
  | logNotOpened
  | notLoaded (error : Error)

namespace Failure

/-- The status that the program ends with. -/
def exitCode : Failure → Nat
  | .misuse _ => 2
  | .noLogName _ | .notLoaded _ => 1
  | .logNotOpened => 101

/-- A cause, set in below the error that it brought about. -/
def indented (cause : String) : String :=
  String.ofList (Text.joined "\n    ".toList ([] :: Text.pieces '\n' cause.toList))

/-- What the program reports. -/
def report : Failure → String
  | .misuse error => error.message
  | .noLogName path => "Error: Log file path has no file name: " ++ path
  | .logNotOpened => "initializing rolling file appender failed"
  | .notLoaded error =>
    "Error: Failed to load workspace descriptor\n\nCaused by:" ++ indented error.message

end Failure

/-- How the program goes on after its start. -/
inductive Launch where
  /-- It prints a text and is done. -/
  | printed (text : String)
  | failed (failure : Failure)
  | serving (server : Server)

/-- What the start of the program leaves behind. -/
structure Started where
  launch : Launch
  disk : Disk
  /-- Whether the start was logged to the standard error. -/
  isLogged : Bool := false

namespace Launch

/-- Opens the log that options ask for; the disk keeps what was made on the way. -/
def openLog (disk : Disk) : Option String → Disk × Option Failure
  | none => (disk, none)
  | some path =>
    match Path.fileName? path with
    | none => (disk, some (.noLogName path))
    | some name =>
      let folder := (Path.parent? path).getD ""
      let attempt := disk.openLog (if folder = "" then "." else folder) name
      (attempt.disk, attempt.fault.map fun _ => .logNotOpened)

/-- Loads the descriptor that options ask for. -/
def load (engine : Engine) (store : Store) : Option String → Except Failure Store
  | none => .ok store
  | some descriptor =>
    match { store with nextId := store.nextId + 1 }.load engine store.nextId descriptor with
    | (.ok _, store) => .ok store
    | (.error error, _) => .error (.notLoaded error)

/-- Starts to serve with the given options. -/
def serve (engine : Engine) (level : Verbosity) (store : Store) (options : Options) : Started :=
  match openLog store.disk options.logFile with
  | (disk, some failure) => { launch := .failed failure, disk }
  | (disk, none) =>
    let isLogged := options.logFile.isNone && level.shows .info
    match load engine { store with disk } options.descriptor with
    | .error failure => { launch := .failed failure, disk, isLogged }
    | .ok store => { launch := .serving { store }, disk, isLogged }

/-- Starts the program. -/
def start (engine : Engine) (store : Store) (environment : String → Option String)
    (arguments : List String) : Started :=
  match CommandLine.read environment arguments with
  | .error error => { launch := .failed (.misuse error), disk := store.disk }
  | .ok .help => { launch := .printed (Help.text environment), disk := store.disk }
  | .ok .version => { launch := .printed Help.versionText, disk := store.disk }
  | .ok (.serve options) =>
    serve engine (.ofSetting (environment CommandLine.levelSetting)) store options

end Launch

/-- What a whole run of the program shows. -/
structure Transcript where
  exitCode : Nat
  /-- What is printed as it is. -/
  printed : String := ""
  /-- Responses, in the order in which they are written. -/
  responses : List Response := []
  /-- The report of a failure. -/
  report : Option String := none
  isLogged : Bool
  disk : Disk

/-- Runs the program on a whole input. -/
def runProgram (engine : Engine) (store : Store) (environment : String → Option String)
    (arguments : List String) (input : String) : Transcript :=
  let started := Launch.start engine store environment arguments
  match started.launch with
  | .printed text =>
    { exitCode := 0, printed := text, isLogged := started.isLogged, disk := started.disk }
  | .failed failure =>
    { exitCode := failure.exitCode
      report := some failure.report
      isLogged := started.isLogged
      disk := started.disk }
  | .serving server =>
    let (responses, server) := server.serve engine input
    { exitCode := 0, responses, isLogged := started.isLogged, disk := server.store.disk }

end CodeIntel
