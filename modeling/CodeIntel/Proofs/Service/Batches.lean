import CodeIntel.Proofs.Service.Previews
import CodeIntel.Proofs.Workspace.History
import CodeIntel.Service.Encode

/-! A batch isolates and accounts for every item. The work is called on each item once and in order,
whatever became of the items before; what is kept is the values of the calls that succeed and the errors of
those that fail or break down, each with its own request, and nothing is counted twice or lost. For the two
batch operations, whose items ask the same engine about the same snapshot, this means that the answer to a
list can be put together from the answers to its items alone. -/

namespace CodeIntel

/-! ### Accounts of a batch -/

/-- How the work on an item ends when nobody gives it up. -/
inductive ItemEnd (α : Type) where
  | succeeded (value : α)
  | failed (error : Error)
  /-- The work broke down; it may have left a message. -/
  | panicked (message : Option String)
deriving DecidableEq

namespace ItemEnd

variable {α : Type}

/-- The end of an item as an end of work. -/
def outcome : ItemEnd α → Outcome Error α
  | succeeded value => .done value
  | failed error => .failed error
  | panicked message => .crashed message

/-- What an item that succeeds contributes. -/
def value? : ItemEnd α → Option α
  | succeeded value => some value
  | failed _ | panicked _ => none

/-- The error of an item that does not succeed; breaking down is an internal one. -/
def error? : ItemEnd α → Option Error
  | succeeded _ => none
  | failed error => some error
  | panicked message => some (.internal ("Batch item panicked: " ++ message.getD "unknown panic"))

theorem exists_outcome_eq {work : Outcome Error α} (h : work ≠ .interrupted) :
    ∃ ended : ItemEnd α, work = ended.outcome := by
  cases work with
  | done value => exact ⟨.succeeded value, rfl⟩
  | failed error => exact ⟨.failed error, rfl⟩
  | crashed message => exact ⟨.panicked message, rfl⟩
  | interrupted => exact absurd rfl h

theorem outcome_injective {one other : ItemEnd α} (h : one.outcome = other.outcome) : one = other := by
  cases one <;> cases other <;> simp_all [outcome]

end ItemEnd

variable {ρ α σ : Type}

/-- The failures among items that end so, in order, each with its request. -/
def BatchFailure.among (requests : List ρ) (ends : List (ItemEnd α)) : List (BatchFailure ρ) :=
  (requests.zip ends).filterMap fun (request, ended) => ended.error?.map fun error => ⟨request, error⟩

theorem BatchFailure.among_cons (request : ρ) (requests : List ρ) (ended : ItemEnd α)
    (ends : List (ItemEnd α)) :
    among (request :: requests) (ended :: ends) =
      (ended.error?.map fun error => ⟨request, error⟩).toList ++ among requests ends := by
  rw [among, List.zip_cons_cons, List.filterMap_cons]
  cases ended <;> rfl

/-- Every item is a result or a failure, and no item is both. -/
theorem length_values_add_failures {requests : List ρ} {ends : List (ItemEnd α)}
    (h : ends.length = requests.length) :
    (ends.filterMap ItemEnd.value?).length + (BatchFailure.among requests ends).length =
      requests.length := by
  induction requests generalizing ends with
  | nil =>
      obtain rfl := List.length_eq_zero_iff.mp h
      rfl
  | cons request requests ih =>
      obtain _ | ⟨ended, ends⟩ := ends
      · cases h
      · have hrest := ih (Nat.succ.inj h)
        rw [BatchFailure.among_cons, List.length_append, List.length_cons, ← hrest]
        cases ended with
        | succeeded => simp [ItemEnd.value?, ItemEnd.error?]; omega
        | failed | panicked => simp [List.filterMap_cons, ItemEnd.value?, ItemEnd.error?]; omega

/-- A batch keeps what its items came to: the values and the failures in the order of the requests, with
counts that add up. -/
structure BatchResult.Accounts (batch : BatchResult ρ α) (requests : List ρ) (ends : List (ItemEnd α)) :
    Prop where
  results : batch.results = ends.filterMap ItemEnd.value?
  failures : batch.failures = BatchFailure.among requests ends
  total : batch.totalRequested = requests.length
  counts : batch.successCount + batch.errorCount = batch.totalRequested

theorem BatchResult.accounts_of_ends {requests : List ρ} {ends : List (ItemEnd α)}
    (h : ends.length = requests.length) :
    BatchResult.Accounts
      ⟨requests.length, ends.filterMap ItemEnd.value?, BatchFailure.among requests ends⟩ requests ends where
  results := rfl
  failures := rfl
  total := rfl
  counts := length_values_add_failures h

namespace Batch

/-- Running the items of a batch is calling the work on each of them in turn, and the sorting out of the
ends comes after. -/
theorem runAll_outcome {m : Type → Type} [Monad m] [LawfulMonad m] (call : ρ → m (ItemEnd α))
    (requests : List ρ) :
    runAll (fun request => ItemEnd.outcome <$> call request) requests =
      (fun ends => some (ends.filterMap ItemEnd.value?, BatchFailure.among requests ends)) <$>
        requests.mapM call := by
  induction requests with
  | nil =>
      rw [runAll, List.mapM_nil, map_pure]
      rfl
  | cons request requests ih =>
      rw [runAll, List.mapM_cons, bind_map_left, map_bind]
      refine bind_congr fun ended => ?_
      rw [map_bind, ih]
      -- What an item adds to the parts is the same before and after the others have run.
      cases ended <;> simp [ItemEnd.outcome, itemEnd?, BatchFailure.among_cons, ItemEnd.error?,
        List.filterMap_cons, ItemEnd.value?, Outcome.report]

theorem execute_outcome {m : Type → Type} [Monad m] [LawfulMonad m] (operation : String)
    {requests : List ρ} {empty : EmptyBatch} (h : empty = .accept ∨ requests ≠ [])
    (call : ρ → m (ItemEnd α)) :
    execute operation requests empty (fun request => ItemEnd.outcome <$> call request) =
      (fun ends => .done ⟨requests.length, ends.filterMap ItemEnd.value?,
        BatchFailure.among requests ends⟩) <$> requests.mapM call := by
  have haccept : ¬(requests.isEmpty = true ∧ empty = .reject) := by
    rintro ⟨hempty, rfl⟩
    rcases h with h | h
    · cases h
    · exact h (List.isEmpty_iff.mp hempty)
  rw [execute, if_neg haccept, runAll_outcome, bind_map_left, map_eq_pure_bind]

end Batch

theorem length_mapM_state (call : ρ → StateM σ α) (requests : List ρ) (before : σ) :
    ((requests.mapM call).run before).1.length = requests.length := by
  induction requests generalizing before with
  | nil => rfl
  | cons request requests ih =>
      rw [List.mapM_cons]
      exact congrArg (· + 1) (ih _)

/-! ### What is shown of a batch -/

/-- What is shown of a failure: that there was no success, the code and the wording of the error, and
whatever else is shown of the request. -/
structure BatchFailure.ShownAs (members : ρ → List (String × Json)) (failure : BatchFailure ρ)
    (entry : Json) : Prop where
  success : entry.get? "success" = some (.bool false)
  error : ∃ error, entry.get? "error" = some error ∧
    error.get? "code" = some (.string failure.error.code.text) ∧
    error.get? "message" = some (.string failure.error.message)
  request : ∀ key, key ≠ "success" → key ≠ "error" →
    entry.get? key = (Json.ofMembers (members failure.request)).get? key

theorem BatchFailure.shownAs_toJson (members : ρ → List (String × Json)) (failure : BatchFailure ρ) :
    failure.ShownAs members (failure.toJson members) := by
  have hentry : ∀ key, (failure.toJson members).get? key =
      Json.member? key (Json.insertMember "error" failure.error.toJson
        (Json.insertMember "success" (.bool false)
          (Json.orderedMembers (members failure.request)))) := by
    intro key
    simp [toJson, Json.ofMembers, Json.get?, Json.orderedMembers, List.foldl_append]
  constructor
  · rw [hentry, Json.member?_insertMember_of_ne _ _ (by decide), Json.member?_insertMember_self]
  · refine ⟨failure.error.toJson, ?_, ?_, ?_⟩
    · rw [hentry, Json.member?_insertMember_self]
    · simp [Error.toJson, Json.get?, Json.ofMembers, Json.orderedMembers,
        Json.member?_insertMember_of_ne, Json.member?_insertMember_self]
    · simp [Error.toJson, Json.get?, Json.ofMembers, Json.orderedMembers,
        Json.member?_insertMember_self]
  · intro key hsuccess herror
    rw [hentry, Json.member?_insertMember_of_ne _ _ herror, Json.member?_insertMember_of_ne _ _ hsuccess]
    rfl

/-- What is shown of a batch: how many items there were of each sort, the results, and an entry for each
failure. -/
structure BatchResult.ShownAs (members : ρ → List (String × Json)) (encode : α → Json)
    (batch : BatchResult ρ α) (shown : Json) : Prop where
  total : shown.get? "totalRequested" = some (.nat batch.totalRequested)
  successes : shown.get? "successCount" = some (.nat batch.results.length)
  errors : shown.get? "errorCount" = some (.nat batch.failures.length)
  results : shown.get? "results" = some (.array (batch.results.map encode))
  entries : ∃ entries, shown.get? "errors" = some (.array entries) ∧
    List.Forall₂ (BatchFailure.ShownAs members) batch.failures entries

theorem BatchResult.shownAs_toJson (members : ρ → List (String × Json)) (encode : α → Json)
    (batch : BatchResult ρ α) : batch.ShownAs members encode (batch.toJson members encode) := by
  constructor
  case entries =>
    refine ⟨batch.failures.map (BatchFailure.toJson members), ?_, ?_⟩
    · simp [toJson, Json.get?, Json.ofMembers, Json.orderedMembers, Json.member?_insertMember_self]
    · rw [List.forall₂_map_right_iff, List.forall₂_same]
      exact fun failure _ => failure.shownAs_toJson members
  all_goals
    simp [toJson, successCount, errorCount, Json.get?, Json.ofMembers, Json.orderedMembers,
      Json.member?_insertMember_of_ne, Json.member?_insertMember_self]

/-! ### A list and its items alone -/

namespace BatchResult

/-- One batch after another. -/
def append (first second : BatchResult ρ α) : BatchResult ρ α :=
  ⟨first.totalRequested + second.totalRequested, first.results ++ second.results,
    first.failures ++ second.failures⟩

/-- Batches put together in order. -/
def merge (batches : List (BatchResult ρ α)) : BatchResult ρ α :=
  batches.foldr append ⟨0, [], []⟩

end BatchResult

namespace Batch

/-- A batch of items that have nothing in common is the batch of its first item and that of the others. -/
theorem settled_execute_cons (operation : String) (request : ρ) (requests : List ρ)
    (work : ρ → Id (Outcome Error α)) :
    (execute operation (request :: requests) .accept work).run.settled = do
      let first ← (execute operation [request] .accept work).run.settled
      let others ← (execute operation requests .accept work).run.settled
      return first.append others := by
  simp only [execute, runAll, reduceCtorEq, and_false, if_false]
  cases hfirst : itemEnd? (work request).run with
  | none =>
      simp [hfirst, Outcome.settled]
      rfl
  | some ended =>
      cases hothers : (runAll work requests).run with
      | none => cases ended <;> simp [hfirst, hothers, Outcome.settled] <;> rfl
      | some others =>
          cases ended <;> simp [hfirst, hothers, Outcome.settled, BatchResult.append] <;>
            rw [Nat.add_comm] <;> rfl

theorem settled_execute_eq_merge (operation : String) (requests : List ρ)
    (work : ρ → Id (Outcome Error α)) :
    (execute operation requests .accept work).run.settled =
      BatchResult.merge <$> requests.mapM fun request =>
        (execute operation [request] .accept work).run.settled := by
  induction requests with
  | nil => rfl
  | cons request requests ih =>
      rw [settled_execute_cons, ih, List.mapM_cons, map_bind]
      refine bind_congr fun first => ?_
      rw [map_bind, bind_map_left]
      rfl

theorem execute_eq_accept {m : Type → Type} [Monad m] (operation : String) {requests : List ρ}
    {empty : EmptyBatch} (h : empty = .accept ∨ requests ≠ []) (work : ρ → m (Outcome Error α)) :
    execute operation requests empty work = execute operation requests .accept work := by
  rcases h with rfl | h
  · rfl
  · simp [execute, h]

end Batch

namespace Plan

variable {engine : Engine} {store : Store}

/-- The answers to the lists of a batch operation. Each is put together from the answers to the items of the
list alone, and where no item is given up it accounts for all of them. -/
def AnswersItemwise (engine : Engine) (store : Store) (call : List ρ → Call)
    (answer : BatchResult ρ α → Answer) (empty : EmptyBatch) (work : ρ → Outcome Error α) : Prop :=
  ∃ answered : List ρ → Except Error (BatchResult ρ α),
    (∀ request items, request.Asks (call items) →
      dispatch engine store request false = ((answered items).map answer, store.drawn)) ∧
    (∀ items, empty = .accept ∨ items ≠ [] →
      answered items = BatchResult.merge <$> items.mapM fun item => answered [item]) ∧
    ((∀ item, work item ≠ .interrupted) → ∃ ended : ρ → ItemEnd α,
      (∀ item, work item = (ended item).outcome) ∧
      ∀ items, empty = .accept ∨ items ≠ [] → ∃ batch, answered items = .ok batch ∧
        batch.Accounts items (items.map ended))

theorem carriedOut_reply (work : Outcome Error α) (answer : α → Answer) (now : Store) :
    carriedOut now false (.ok (reply fun _ => do return answer (← work))) =
      (work.settled.map answer, now) := by
  cases work <;> rfl

theorem answersItemwise_of_execute {call : List ρ → Call} {answer : BatchResult ρ α → Answer}
    {empty : EmptyBatch} {work : ρ → Outcome Error α} (operation : String)
    (h : ∀ id items, ofCall engine store id (call items) =
      .ok (reply fun _ => do return answer (← Id.run <| Batch.execute operation items empty work))) :
    AnswersItemwise engine store call answer empty work := by
  refine ⟨fun items => (Id.run <| Batch.execute operation items empty work).settled, ?_, ?_, ?_⟩
  · intro request items hasks
    rw [dispatch_of_asks hasks, h, carriedOut_reply]
  · intro items hitems
    have halone : ∀ item, Batch.execute (m := Id) operation [item] empty work =
        Batch.execute (m := Id) operation [item] .accept work :=
      fun item => Batch.execute_eq_accept (m := Id) operation (.inr (List.cons_ne_nil _ _)) work
    simp only [halone]
    rw [Batch.execute_eq_accept (m := Id) operation hitems work]
    exact Batch.settled_execute_eq_merge operation items work
  · intro hends
    choose ended hended using fun item => ItemEnd.exists_outcome_eq (hends item)
    refine ⟨ended, hended, fun items hitems => ⟨_, ?_, BatchResult.accounts_of_ends (by simp)⟩⟩
    have hexecute := Batch.execute_outcome (m := Id) operation hitems ended
    obtain rfl : work = fun item => (ended item).outcome := funext hended
    have hcalled : items.mapM (m := Id) ended = items.map ended := List.mapM_pure ..
    rw [hcalled] at hexecute
    exact congrArg (fun work => (Id.run work).settled) hexecute

theorem answersItemwise_typeMembers {snapshot : Snapshot} (hpublished : store.published = some snapshot) :
    AnswersItemwise engine store .getTypeMembersBatch .typeMembers .accept
      (typeMembers engine snapshot) := by
  refine answersItemwise_of_execute "GetTypeMembersBatch" fun id items => ?_
  rw [ofCall, typeMembersBatch, Store.current_eq_ok.mpr hpublished]
  rfl

theorem answersItemwise_methodSource {snapshot : Snapshot} (hpublished : store.published = some snapshot) :
    AnswersItemwise engine store .getMethodSourceBatch .methodSources .reject
      (methodSource engine snapshot) := by
  refine answersItemwise_of_execute "GetMethodSourceBatch" fun id items => ?_
  rw [ofCall, methodSourceBatch, Store.current_eq_ok.mpr hpublished]
  rfl

/-- An engine that reports the symbols of every document does not give up a lookup of a type. -/
theorem typeMembers_ne_interrupted
    (h : ∀ document, ∃ symbols, engine.documentSymbols document = .done symbols)
    (snapshot : Snapshot) (typeName : String) : typeMembers engine snapshot typeName ≠ .interrupted := by
  have hfind : ∀ documents, findType engine typeName documents ≠ .interrupted := by
    intro documents
    induction documents with
    | nil => simp [findType]
    | cons document documents ih =>
        obtain ⟨symbols, hsymbols⟩ := h document
        rw [findType, hsymbols]
        simp only [ask, Outcome.mapError, bind, Outcome.andThen, pure]
        split
        · simp
        · exact ih
  rw [typeMembers]
  split
  · simp
  · cases hfound : findType engine typeName snapshot.allDocuments with
    | interrupted => exact absurd hfound (hfind _)
    | done | failed | crashed => simp [bind, Outcome.andThen, pure]

end Plan

/-- A batch calls the work on each of its items once and in order, keeps the values and the failures in the
order of the requests with counts that add up, and shows each failure with its request. So the answer to a
list of types or methods is put together from the answers to each of them alone. -/
theorem batches_isolate_items :
    (∀ {ρ α σ : Type} (operation : String) (requests : List ρ) (empty : EmptyBatch)
      (call : ρ → StateM σ (ItemEnd α)) (before : σ), requests ≠ [] →
      ∃ ends after batch, (requests.mapM call).run before = (ends, after) ∧
        (Batch.execute operation requests empty fun request => ItemEnd.outcome <$> call request).run before =
          (.done batch, after) ∧
        batch.Accounts requests ends ∧
        ∀ members encode, batch.ShownAs members encode (batch.toJson members encode)) ∧
    ∀ (engine : Engine) (store : Store) (snapshot : Snapshot), store.published = some snapshot →
      Plan.AnswersItemwise engine store .getTypeMembersBatch .typeMembers .accept
        (Plan.typeMembers engine snapshot) ∧
      Plan.AnswersItemwise engine store .getMethodSourceBatch .methodSources .reject
        (Plan.methodSource engine snapshot) := by
  refine ⟨fun operation requests empty call before h => ?_, fun engine store snapshot hpublished => ?_⟩
  · have hends := length_mapM_state call requests before
    refine ⟨_, _, _, rfl, ?_, BatchResult.accounts_of_ends hends, fun _ _ => BatchResult.shownAs_toJson ..⟩
    rw [Batch.execute_outcome operation (.inr h)]
    rfl
  · exact ⟨Plan.answersItemwise_typeMembers hpublished, Plan.answersItemwise_methodSource hpublished⟩

/-- Work that notes what it is called on; it doubles a number, fails on one and breaks down on zero. -/
def doubling (n : Nat) : StateM (List Nat) (ItemEnd Nat) := do
  modify (n :: ·)
  return match n with
    | 0 => .panicked none
    | 1 => .failed (.notFound "one")
    | n => .succeeded (2 * n)

/-- An engine that reports a class of each document. -/
def classEngine : Engine :=
  { soloEngine with
    documentSymbols := fun _ => .done [⟨"C", .classType, none, "a", .point ⟨0, 0⟩, .point ⟨0, 0⟩⟩] }

/-- Work that breaks down on one item goes on with the next; and of three types that are asked for, one
without a name and one that there is not, the third has its members listed. -/
theorem three_items_accounted :
    (Batch.execute "Double" [3, 0, 1] .reject fun n => ItemEnd.outcome <$> doubling n).run [] =
      (.done ⟨3, [6], [⟨0, .internal "Batch item panicked: unknown panic"⟩, ⟨1, .notFound "one"⟩]⟩,
        [1, 0, 3]) ∧
    ∃ batch, (dispatch classEngine (soloWorld "x" (some (soloSnapshot 0 0 "x")) [] [0]).store
        ⟨"GetTypeMembersBatch", .array [.strings ["D", "C", " "]]⟩ false).1 = .ok (.typeMembers batch) ∧
      batch.results = [⟨"C", .classType, "a", []⟩] ∧
      batch.failures = [⟨"D", .notFound "Type not found: D"⟩,
        ⟨" ", .invalidArgument "typeName must not be empty"⟩] := by
  constructor
  · obtain ⟨ends, after, batch, hcalled, hrun, haccounts, -⟩ :=
      batches_isolate_items.1 "Double" [3, 0, 1] .reject doubling [] (by decide)
    obtain ⟨rfl, rfl⟩ := Prod.mk.inj hcalled
    obtain ⟨total, results, failures⟩ := batch
    obtain rfl : total = 3 := haccounts.total
    obtain rfl : results = [6] := haccounts.results
    obtain rfl := haccounts.failures
    exact hrun
  · obtain ⟨answered, hanswered, -, haccounted⟩ := (batches_isolate_items.2 classEngine
      (soloWorld "x" (some (soloSnapshot 0 0 "x")) [] [0]).store (soloSnapshot 0 0 "x") rfl).1
    obtain ⟨ended, hended, haccounted⟩ :=
      haccounted (Plan.typeMembers_ne_interrupted (fun _ => ⟨_, rfl⟩) _)
    obtain ⟨batch, hbatch, haccounts⟩ := haccounted ["D", "C", " "] (.inl rfl)
    have hmissing : ended "D" = .failed (.notFound "Type not found: D") :=
      ItemEnd.outcome_injective (hended "D").symm
    have hfound : ended "C" = .succeeded ⟨"C", .classType, "a", []⟩ :=
      ItemEnd.outcome_injective (hended "C").symm
    have hblank : ended " " = .failed (.invalidArgument "typeName must not be empty") :=
      ItemEnd.outcome_injective (hended " ").symm
    refine ⟨batch, ?_, ?_, ?_⟩
    · rw [hanswered _ ["D", "C", " "] ⟨.getTypeMembersBatch, rfl, rfl⟩, hbatch]
      rfl
    · rw [haccounts.results]
      simp [hmissing, hfound, hblank, ItemEnd.value?, List.filterMap_cons]
    · rw [haccounts.failures]
      simp [hmissing, hfound, hblank, BatchFailure.among, ItemEnd.error?]

end CodeIntel
