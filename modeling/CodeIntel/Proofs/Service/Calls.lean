import CodeIntel.Proofs.Outcome
import CodeIntel.Service.Dispatch

/-! From a request to what is left of it. The arguments of a request spell one call of its operation;
the engine's part of a call leaves an answer or, for the four operations that mutate, one of four
publishing steps; and a request that runs alone comes to what its plan says. Later proofs about
requests use these statements and do not look into the handlers again. -/

namespace CodeIntel

/-! ### Reading a call -/

namespace Json.Record

variable {α β : Type}

/-- What can be said of everything that a record builds from given fields. -/
def Builds (record : Record α) (holds : (String → Option Json) → α → Prop) : Prop :=
  ∀ given missing value, record.build given missing = .ok value → holds given value

theorem Builds.map {f : α → β} {record : Record α} {holds : (String → Option Json) → β → Prop}
    (h : ∀ given value, holds given (f value)) : (f <$> record).Builds holds := by
  intro given missing value hbuild
  obtain ⟨first, -, rfl⟩ := map_eq_ok.mp hbuild
  exact h given first

end Json.Record

namespace Call

open Json (Record)

/-- The operation of a call. -/
def operation : Call → Operation
  | loadWorkspace .. => .loadWorkspace
  | syncDocuments .. => .syncDocuments
  | getWorkspaceStatus => .getWorkspaceStatus
  | searchSymbols .. => .searchSymbols
  | getDocumentSymbols .. => .getDocumentSymbols
  | goToDefinition .. => .goToDefinition
  | findReferences .. => .findReferences
  | findCallers .. => .findCallers
  | getOutgoingCalls .. => .getOutgoingCalls
  | renameSymbol .. => .renameSymbol
  | getCodeActions .. => .getCodeActions
  | applyCodeAction .. => .applyCodeAction
  | getDiagnostics .. => .getDiagnostics
  | getComplexityMetrics .. => .getComplexityMetrics
  | getTypeMembersBatch .. => .getTypeMembersBatch
  | getMethodSourceBatch .. => .getMethodSourceBatch

end Call

/-! ### What the engine's part leaves -/

/-- Engine work that ends, if it comes to an end, with something of a kind. -/
def Outcome.Ends (work : Outcome Error Finish) (holds : Finish → Prop) : Prop :=
  ∀ finish, work = .done finish → holds finish

section

variable {holds : Finish → Prop}

theorem Outcome.Ends.bind {α : Type} {work : Outcome Error α} {next : α → Outcome Error Finish}
    (h : ∀ value, (next value).Ends holds) : (work >>= next).Ends holds := by
  intro finish hdone
  obtain ⟨value, -, hnext⟩ := Outcome.bind_eq_done.mp hdone
  exact h value finish hnext

theorem Outcome.Ends.done {finish : Finish} (h : holds finish) : Outcome.Ends (.done finish) holds := by
  intro other hdone
  exact Outcome.done.inj hdone ▸ h

theorem Outcome.Ends.failed {error : Error} : Outcome.Ends (.failed error) holds := by
  intro finish hdone
  cases hdone

end

namespace Plan

/-- What the engine's part of a call can leave: an answer, or the publishing step of the call. -/
inductive Leaves : Call → Finish → Prop where
  | reply {call : Call} (answer : Answer) : Leaves call (.reply answer)
  | load {path : String} (pending : PendingLoad) :
      Leaves (.loadWorkspace path)
        (.publish fun store =>
          (.ok (.loaded (store.commitLoad pending).1), (store.commitLoad pending).2))
  | sync {paths : Option (List String)} (pending : PendingSync) :
      Leaves (.syncDocuments paths)
        (.publish fun store =>
          ((store.commitSync pending).1.map .synced, (store.commitSync pending).2))
  | rename {cursor : Cursor} {newName : String} {preview : Bool} (snapshot : Snapshot)
      (edits : List DocumentEdit) (oldName : String) :
      Leaves (.renameSymbol cursor newName preview)
        (finishEdits snapshot edits preview fun effect =>
          .renamed ⟨oldName, newName, affectedFiles edits, changeCount edits, effect⟩)
  | act {selection : Selection} {title : String} {preview : Bool} (snapshot : Snapshot)
      (edits : List DocumentEdit) :
      Leaves (.applyCodeAction selection title preview)
        (finishEdits snapshot edits preview fun effect => .acted ⟨title, affectedFiles edits, effect⟩)

/-- A plan that a call can have. Only the status is known without the engine. -/
def Fits (call : Call) : Plan → Prop
  | .known _ => call = .getWorkspaceStatus
  | .work compute => ∀ store, (compute store).Ends (Leaves call)

/-- Two checks of one call that refuse it with one error, or both let it through. -/
inductive Alike (call : Call) : Except Error Plan → Except Error Plan → Prop where
  | refused (error : Error) : Alike call (.error error) (.error error)
  | planned {one other : Plan} : one.Fits call → other.Fits call → Alike call (.ok one) (.ok other)

variable {call : Call} {engine other : Engine}

theorem Alike.bind {α : Type} {checked : Except Error α} {next next' : α → Except Error Plan}
    (h : ∀ value, Alike call (next value) (next' value)) :
    Alike call (checked >>= next) (checked >>= next') := by
  cases checked with
  | error error => exact .refused error
  | ok value => exact h value

theorem Alike.replies {compute compute' : Unit → Outcome Error Answer} :
    Alike call (.ok (Plan.reply compute)) (.ok (Plan.reply compute')) :=
  .planned (fun _ => .bind fun answer => .done (.reply answer))
    (fun _ => .bind fun answer => .done (.reply answer))

theorem alike_renameSymbol (hvalid : other.isValidIdentifier = engine.isValidIdentifier)
    (store : Store) (cursor : Cursor) (newName : String) (preview : Bool) :
    Alike (.renameSymbol cursor newName preview) (renameSymbol engine store cursor newName preview)
      (renameSymbol other store cursor newName preview) := by
  unfold renameSymbol
  rw [hvalid]
  split
  · exact .refused _
  · refine .bind fun snapshot => .bind fun anchor => .planned ?_ ?_
    all_goals
      refine fun _ => .bind fun document => .bind fun symbol => ?_
      cases symbol with
      | none => exact .failed
      | some symbol => exact .bind fun edits => .done (.rename snapshot edits symbol.name)

theorem alike_applyCodeAction (engine other : Engine) (store : Store) (selection : Selection)
    (title : String) (preview : Bool) :
    Alike (.applyCodeAction selection title preview)
      (applyCodeAction engine store selection title preview)
      (applyCodeAction other store selection title preview) := by
  refine .bind fun ends => .bind fun snapshot => .bind fun range => .planned ?_ ?_
  all_goals
    refine fun _ => .bind fun document => .bind fun actions => ?_
    split
    · exact .failed
    · exact .bind fun edits => .done (.act snapshot edits)

/-- The checks of a call ask nothing of the engine but whether a name may be given to a symbol, and
let through a plan of that call. -/
theorem alike_ofCall (hvalid : other.isValidIdentifier = engine.isValidIdentifier) (store : Store)
    (id : Nat) (call : Call) :
    Alike call (ofCall engine store id call) (ofCall other store id call) := by
  cases call with
  | loadWorkspace path =>
      exact .planned (fun _ => .bind fun pending => .done (.load pending))
        (fun _ => .bind fun pending => .done (.load pending))
  | syncDocuments paths =>
      exact .planned (fun _ => .bind fun pending => .done (.sync pending))
        (fun _ => .bind fun pending => .done (.sync pending))
  | getWorkspaceStatus => exact .planned rfl rfl
  | renameSymbol cursor newName preview => exact alike_renameSymbol hvalid store cursor newName preview
  | applyCodeAction selection title preview =>
      exact alike_applyCodeAction engine other store selection title preview
  | searchSymbols => exact .bind fun _ => .bind fun _ => .bind fun _ => .bind fun _ => .replies
  | getDocumentSymbols | goToDefinition => exact .bind fun _ => .bind fun _ => .replies
  | findReferences | findCallers | getOutgoingCalls | getCodeActions | getDiagnostics =>
      exact .bind fun _ => .bind fun _ => .bind fun _ => .replies
  | getComplexityMetrics =>
      exact .bind fun _ => .bind fun _ => .bind fun _ => .bind fun _ => .bind fun _ => .replies
  | getTypeMembersBatch | getMethodSourceBatch => exact .bind fun _ => .replies

theorem fits_ofCall {store : Store} {id : Nat} {plan : Plan} (h : ofCall engine store id call = .ok plan) :
    plan.Fits call := by
  have hsame : engine.isValidIdentifier = engine.isValidIdentifier := rfl
  have halike := alike_ofCall hsame store id call
  rw [h] at halike
  cases halike with
  | planned hfits => exact hfits

/-- The plan of a request that is started on a store. -/
def ofRequest (engine : Engine) (store : Store) (request : Request) : Except Error Plan := do
  let operation ← Operation.ofText request.operation
  ofCall engine store store.nextId (← Call.decode operation request.arguments)

end Plan

/-! ### A request on its own -/

/-- The store when a request has drawn its number from it. -/
def Store.drawn (store : Store) : Store := { store with nextId := store.nextId + 1 }

/-- What the plan of a request comes to when nothing else happens. -/
def Plan.carriedOut (store : Store) (cancelled : Bool) : Except Error Plan → Envelope × Store
  | .error error => (.error error, store)
  | .ok (.known answer) => (.ok answer, store)
  | .ok (.work compute) =>
    if cancelled then (.error Error.cancelled, store)
    else
      match (compute store).settled with
      | .error error => (.error error, store)
      | .ok (.reply answer) => (.ok answer, store)
      | .ok (.publish step) => step store

theorem start_eq (engine : Engine) (store : Store) (request : Request) (cancelled : Bool) :
    Flight.start engine store store.nextId request cancelled =
      match Plan.ofRequest engine store request with
      | .error error => .answered (.error error)
      | .ok (.known answer) => .answered (.ok answer)
      | .ok (.work compute) =>
        if cancelled then .answered (.error Error.cancelled) else .computing compute :=
  rfl

/-- A request that runs alone comes to what its plan says. -/
theorem dispatch_eq_carriedOut (engine : Engine) (store : Store) (request : Request)
    (cancelled : Bool) :
    dispatch engine store request cancelled =
      Plan.carriedOut store.drawn cancelled (Plan.ofRequest engine store request) := by
  rw [dispatch, start_eq, ← Store.drawn]
  cases Plan.ofRequest engine store request with
  | error error => rfl
  | ok plan =>
      cases plan with
      | known answer => rfl
      | work compute =>
          cases cancelled with
          | true => rfl
          | false =>
              simp only [Plan.carriedOut, Flight.compute, Flight.settle, Bool.false_eq_true, if_false]
              cases (compute store.drawn).settled with
              | error error => rfl
              | ok finish => cases finish <;> rfl

/-! ### What a request asks for -/

/-- The arguments of a request are read as a call. -/
def Request.Asks (request : Request) (call : Call) : Prop :=
  ∃ operation, Operation.ofText request.operation = .ok operation ∧
    Call.decode operation request.arguments = .ok call

theorem Plan.ofRequest_of_asks {request : Request} {call : Call} (h : request.Asks call)
    (engine : Engine) (store : Store) :
    Plan.ofRequest engine store request = Plan.ofCall engine store store.nextId call := by
  obtain ⟨operation, hoperation, hcall⟩ := h
  rw [Plan.ofRequest, hoperation]
  change (Call.decode operation request.arguments >>= _) = _
  rw [hcall]
  rfl

theorem dispatch_of_asks {request : Request} {call : Call} (h : request.Asks call) (engine : Engine)
    (store : Store) (cancelled : Bool) :
    dispatch engine store request cancelled =
      Plan.carriedOut store.drawn cancelled (Plan.ofCall engine store store.nextId call) := by
  rw [dispatch_eq_carriedOut, Plan.ofRequest_of_asks h]

/-- Arguments by name and in order are read alike, and what is left out of them is no preview. -/
example :
    Request.Asks ⟨"RenameSymbol", .array [.string "a", .nat 3, .nat 7, .string "N", .bool true]⟩
        (.renameSymbol ⟨"a", 3, 7⟩ "N" true) ∧
      Request.Asks
        ⟨"RenameSymbol", .ofMembers
          [("file", .string "a"), ("line", .nat 3), ("column", .nat 7), ("newName", .string "N")]⟩
        (.renameSymbol ⟨"a", 3, 7⟩ "N" false) :=
  ⟨⟨.renameSymbol, rfl, rfl⟩, ⟨.renameSymbol, rfl, rfl⟩⟩

end CodeIntel
