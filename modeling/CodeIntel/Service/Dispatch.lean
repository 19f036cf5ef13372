import CodeIntel.Service.Plan

/-! A request from its start to its answer. It is checked and, unless it has been cancelled, handed
to the engine, which may be overtaken by a cancellation; when the engine is done it is looked at once
more, and only a request that is still wanted takes its publishing step. That step is not
interrupted. -/

namespace CodeIntel

/-- A request by the name of its operation and its arguments. -/
structure Request where
  operation : String
  arguments : Json
deriving Inhabited

/-- Where a request stands. -/
inductive Flight where
  | answered (envelope : Envelope)
  /-- The engine is at work. -/
  | computing (compute : Store → Outcome Error Finish)
  /-- The engine is done, and what it made has not been taken up. -/
  | computed (outcome : Outcome Error Finish)
  /-- This step is left, and whether the request is still wanted is to be looked at. -/
  | ready (step : Store → Except Error Answer × Store)
  /-- The request was still wanted, and this step is under way. -/
  | publishing (step : Store → Except Error Answer × Store)

namespace Flight

/-- Starts a request: checks it and hands it to the engine. A request that is cancelled by then fails
where the engine would start. -/
def start (engine : Engine) (store : Store) (id : Nat) (request : Request) (cancelled : Bool) :
    Flight :=
  let plan : Except Error Plan := do
    let operation ← Operation.ofText request.operation
    Plan.ofCall engine store id (← Call.decode operation request.arguments)
  match plan with
  | .error error => .answered (.error error)
  | .ok (.known answer) => .answered (.ok answer)
  | .ok (.work compute) =>
    if cancelled then .answered (.error Error.cancelled) else .computing compute

/-- Lets the engine do its part on the store as it is now. -/
def compute (store : Store) : Flight → Flight
  | .computing compute => .computed (compute store)
  | other => other

/-- Takes up what the engine made of a request. -/
def settle : Flight → Flight
  | .computed outcome =>
    match outcome.settled with
    | .error error => .answered (.error error)
    | .ok (.reply answer) => .answered (.ok answer)
    | .ok (.publish step) => .ready step
  | other => other

/-- Answers a request that is cancelled before what the engine makes of it is taken up. The engine is
not stopped; nobody waits for it any longer. -/
def abandon : Flight → Flight
  | .computing _ | .computed _ => .answered (.error Error.cancelled)
  | other => other

/-- Looks once more whether a request is cancelled, right before its publishing step. -/
def recheck (cancelled : Bool) : Flight → Flight
  | .ready step => if cancelled then .answered (.error Error.cancelled) else .publishing step
  | other => other

/-- Takes the publishing step of a request. -/
def publish (store : Store) : Flight → Flight × Store
  | .publishing step =>
    let (envelope, store) := step store
    (.answered envelope, store)
  | other => (other, store)

/-- The answer of a request that has one. -/
def envelope? : Flight → Option Envelope
  | .answered envelope => some envelope
  | _ => none

end Flight

/-- Runs one request with no other in between. Each request brings a new number for a load. -/
def dispatch (engine : Engine) (store : Store) (request : Request) (cancelled : Bool) :
    Envelope × Store :=
  let begun := Flight.start engine store store.nextId request cancelled
  let store := { store with nextId := store.nextId + 1 }
  let (ended, store) := (((begun.compute store).settle).recheck cancelled).publish store
  (ended.envelope?.getD (.error Error.cancelled), store)

/-! ### A check of names that breaks down

The engine is asked whether a name is allowed before its part of a request begins, and only in that part
are breakdowns caught. -/

/-- What a check of names says, or what its breakdown leaves. -/
abbrev NameCheck := String → Except (Option String) Bool

/-- An engine with this check of names in place of its own; where it breaks down no name is allowed. -/
def Engine.checkingBy (engine : Engine) (check : NameCheck) : Engine :=
  { engine with isValidIdentifier := fun name => (check name).toOption.getD false }

/-- The call that a request asks for. -/
def Request.call (request : Request) : Except Error Call := do
  let operation ← Operation.ofText request.operation
  Call.decode operation request.arguments

/-- The new name in a request for a rename. -/
def Request.newName? (request : Request) : Option String :=
  match request.call with
  | .ok (.renameSymbol _ newName _) => some newName
  | _ => none

/-- How a request ends for whoever made it. -/
inductive Ending where
  | answered (envelope : Envelope)
  /-- The check of a name broke down, and there is no envelope. -/
  | unwound (report : Option String)

/-- Runs one request with no other in between, by an engine whose check of names may break down. -/
def attempt (engine : Engine) (check : NameCheck) (store : Store) (request : Request)
    (cancelled : Bool) : Ending × Store :=
  match request.newName?.map check with
  | some (.error report) => (.unwound report, store)
  | _ =>
    let (envelope, store) := dispatch (engine.checkingBy check) store request cancelled
    (.answered envelope, store)

end CodeIntel
