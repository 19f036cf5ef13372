import CodeIntel.Server.Line
import CodeIntel.Server.Registry
import CodeIntel.Service.Encode

/-! A server that reads lines and answers them. Requests run beside each other: a run of the server
is a sequence of moves, each of which reads a line or takes one request one step further, and any
order of moves is a run. Serving a whole text is the run that reads every line before the first
request starts. -/

namespace CodeIntel

/-- What is written for a line: the id of its request and what the request came back with. -/
structure Response where
  id : Json
  envelope : Envelope
deriving Inhabited

/-- A response as JSON. -/
def Response.toJson (response : Response) : Json :=
  .ofMembers (("id", response.id) :: response.envelope.members)

/-- A server between two runs: what it serves, and what it knows of the requests on their way. -/
structure Server where
  store : Store
  registry : Registry := {}
  /-- No request so far has this token or a greater one. -/
  nextToken : RequestToken := 0
  /-- The tokens that are cancelled. -/
  cancelled : List RequestToken := []
deriving Inhabited

/-- How far a request has come. -/
inductive Stage where
  | waiting
  | flying (flight : Flight)
  /-- It is answered and no longer registered; what is left is to write the response. -/
  | released (envelope : Envelope)

/-- A request that has been read and not been responded to. -/
structure Task where
  id : Json
  request : Request
  token : RequestToken
  /-- The key and ticket of a request that can be cancelled. -/
  registration : Option (String × Nat)
  stage : Stage := .waiting

/-- A run of a server. -/
structure Run where
  server : Server
  unread : List String
  tasks : List Task := []
  sent : List Response := []

/-- What can happen next. -/
inductive Move where
  /-- The next line is read. -/
  | read
  /-- A request is checked and handed to the engine. -/
  | start (token : RequestToken)
  /-- The engine does its part of a request. -/
  | compute (token : RequestToken)
  /-- What the engine made of a request is taken up. -/
  | settle (token : RequestToken)
  /-- A request that was cancelled does not wait for the engine. -/
  | abandon (token : RequestToken)
  /-- A request is looked at once more before its publishing step. -/
  | recheck (token : RequestToken)
  /-- The publishing step of a request is taken. -/
  | publish (token : RequestToken)
  /-- An answered request is taken out of the registry. -/
  | release (token : RequestToken)
  /-- The response of a request is written. -/
  | send (token : RequestToken)
deriving DecidableEq, Repr

namespace Server

/-- Whether a token is cancelled. -/
def isCancelled (server : Server) (token : RequestToken) : Bool := server.cancelled.contains token

/-- Cancels every request on its way under a key. -/
def cancel (server : Server) (key : Option String) : Server :=
  match key with
  | some key => { server with cancelled := server.registry.reached key ++ server.cancelled }
  | none => server

/-- Takes a request in: it gets a token and, if it has an id, a ticket. -/
def takeIn (server : Server) (id : Json) (request : Request) : Task × Server :=
  let token := server.nextToken
  let server := { server with nextToken := token + 1 }
  match requestKey? id with
  | none => (⟨id, request, token, none, .waiting⟩, server)
  | some key =>
    let (ticket, registry) := server.registry.register key token
    (⟨id, request, token, some (key, ticket), .waiting⟩, { server with registry })

/-- Forgets a request. -/
def forget (server : Server) : Option (String × Nat) → Server
  | some (key, ticket) => { server with registry := server.registry.finish key ticket }
  | none => server

end Server

namespace Run

/-- Takes up a line. -/
def accept (run : Run) : Line → Run
  | .blank => run
  | .malformed fault => { run with sent := run.sent ++ [⟨.null, .error fault.toError⟩] }
  | .cancel key => { run with server := run.server.cancel key }
  | .request id request =>
    let (task, server) := run.server.takeIn id request
    { run with server, tasks := run.tasks ++ [task] }

/-- Reads the next line. -/
def read (run : Run) : Run :=
  match run.unread with
  | [] => run
  | line :: rest => { run with unread := rest }.accept (Line.ofText line)

/-- The request of a token. -/
def task? (run : Run) (token : RequestToken) : Option Task :=
  run.tasks.find? fun task => task.token = token

/-- Puts a request at another stage. -/
def setStage (run : Run) (token : RequestToken) (stage : Stage) : Run :=
  { run with
    tasks := run.tasks.map fun task => if task.token = token then { task with stage } else task }

/-- Starts a request; a load that it may stand for gets a new number. -/
def start (engine : Engine) (run : Run) (task : Task) : Run :=
  let store := run.server.store
  let flight :=
    Flight.start engine store store.nextId task.request (run.server.isCancelled task.token)
  { run with server := { run.server with store := { store with nextId := store.nextId + 1 } } }.setStage
    task.token (.flying flight)

/-- Takes the publishing step of a request. -/
def publish (run : Run) (task : Task) (flight : Flight) : Run :=
  let (flight, store) := flight.publish run.server.store
  { run with server := { run.server with store } }.setStage task.token (.flying flight)

/-- Makes a move with the request of a token; a move that its stage does not allow changes nothing. -/
def advance (engine : Engine) (run : Run) (move : Move) (task : Task) : Run :=
  match move, task.stage with
  | .start _, .waiting => run.start engine task
  | .compute _, .flying flight =>
    run.setStage task.token (.flying (flight.compute run.server.store))
  | .settle _, .flying flight => run.setStage task.token (.flying flight.settle)
  | .abandon _, .flying flight =>
    if run.server.isCancelled task.token then run.setStage task.token (.flying flight.abandon)
    else run
  | .recheck _, .flying flight =>
    run.setStage task.token (.flying (flight.recheck (run.server.isCancelled task.token)))
  | .publish _, .flying flight => run.publish task flight
  | .release _, .flying (.answered envelope) =>
    { run with server := run.server.forget task.registration }.setStage task.token
      (.released envelope)
  | .send _, .released envelope =>
    { run with
      tasks := run.tasks.filter fun other => other.token ≠ task.token
      sent := run.sent ++ [⟨task.id, envelope⟩] }
  | _, _ => run

/-- Makes a move. -/
def step (engine : Engine) (run : Run) (move : Move) : Run :=
  match move with
  | .read => run.read
  | .start token | .compute token | .settle token | .abandon token | .recheck token | .publish token
  | .release token | .send token =>
    match run.task? token with
    | some task => run.advance engine move task
    | none => run

/-- Makes moves one after another. -/
def steps (engine : Engine) (run : Run) (moves : List Move) : Run :=
  moves.foldl (step engine) run

/-- The moves that take a request from its start to its response. -/
def wholeOf (task : Task) : List Move :=
  [.start task.token, .compute task.token, .settle task.token, .recheck task.token,
    .publish task.token, .release task.token, .send task.token]

/-- Reads every line, and then takes every request to its end, the earliest first. -/
def drain (engine : Engine) (run : Run) : Run :=
  let run := run.steps engine (run.unread.map fun _ => .read)
  run.steps engine (run.tasks.flatMap wholeOf)

end Run

/-- Serves a text to its end: the responses in the order in which they are written. -/
def Server.serve (engine : Engine) (server : Server) (text : String) : List Response × Server :=
  let run : Run := ({ server, unread := Line.split text } : Run).drain engine
  (run.sent, run.server)

end CodeIntel
