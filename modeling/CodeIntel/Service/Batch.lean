import CodeIntel.Analysis.Outcome

/-! Running several requests of one kind. Each item ends by itself: one that fails or breaks down is
reported beside the results of the others. -/

namespace CodeIntel

/-- What a batch makes of an empty list. -/
inductive EmptyBatch where
  /-- Nothing was asked for, nothing is answered. -/
  | accept
  | reject
deriving DecidableEq, Repr

/-- A request that failed. -/
structure BatchFailure (ρ : Type) where
  request : ρ
  error : Error
deriving DecidableEq, Repr

/-- The results and failures of a batch, both in the order of the requests. -/
structure BatchResult (ρ α : Type) where
  totalRequested : Nat
  results : List α
  failures : List (BatchFailure ρ)
deriving DecidableEq, Repr

namespace BatchResult

/-- How many requests succeeded. -/
def successCount (batch : BatchResult ρ α) : Nat := batch.results.length

/-- How many requests failed. -/
def errorCount (batch : BatchResult ρ α) : Nat := batch.failures.length

end BatchResult

namespace Batch

/-- The end of one item: a breakdown is a failure of that item. Nothing when the whole request was
cancelled. -/
def itemEnd? : Outcome Error α → Option (Except Error α)
  | .done value => some (.ok value)
  | .failed error => some (.error error)
  | .crashed message => some (.error (.internal ("Batch item panicked: " ++ Outcome.report message)))
  | .interrupted => none

/-- Runs requests one after another; it stops only when the whole request is cancelled. -/
def runAll [Monad m] (work : ρ → m (Outcome Error α)) :
    List ρ → m (Option (List α × List (BatchFailure ρ)))
  | [] => pure (some ([], []))
  | request :: rest => do
    match itemEnd? (← work request) with
    | none => pure none
    | some (.ok value) =>
      return (← runAll work rest).map fun (results, failures) => (value :: results, failures)
    | some (.error error) =>
      return (← runAll work rest).map fun (results, failures) =>
        (results, ⟨request, error⟩ :: failures)

/-- Runs a batch. -/
def execute [Monad m] (operation : String) (requests : List ρ) (empty : EmptyBatch)
    (work : ρ → m (Outcome Error α)) : m (Outcome Error (BatchResult ρ α)) := do
  if requests.isEmpty ∧ empty = .reject then
    return .failed (.invalidArgument (operation ++ " requires at least one request"))
  else
    match ← runAll work requests with
    | none => return .interrupted
    | some (results, failures) => return .done ⟨requests.length, results, failures⟩

end Batch

end CodeIntel
