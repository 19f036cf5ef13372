import CodeIntel.Proofs.Service.Calls
import CodeIntel.Proofs.Workspace.History
import CodeIntel.Server.Registry
import Mathlib.Logic.Function.Basic

/-! A request that is answered as cancelled has changed nothing and never will. Any number of requests
are on their way at once, each takes its phases one by one, and between any two of them everything else
can happen: other requests go on, tokens are cancelled, the store and the disk change. Only the
publishing step of a request touches the store; it is begun only by a request that was still wanted, it
is not interrupted, and whatever it comes to is the answer. -/

namespace CodeIntel

/-! ### A publishing step does not fail as cancelled -/

theorem refusedWrite_ne_cancelled (path : String) (fault : DiskFault) :
    Error.internal s!"Failed to write {path}: {fault.message}" ≠ Error.cancelled := by
  intro h
  have hhead := congrArg (fun text : String => text.toList.head?) (Error.internal.inj h)
  have hwrite : "Failed to write ".toList.head? = some 'F' := by decide
  have hcancelled : "request cancelled".toList.head? = some 'r' := by decide
  have hfirst : (s!"Failed to write {path}: {fault.message}").toList.head? = some 'F' := by
    simp only [String.toList_append, List.head?_append, toString, hwrite]
    rfl
  rw [hfirst, hcancelled] at hhead
  cases hhead

namespace Store

theorem applyEdits_ne_cancelled (store : Store) (id version : Nat) (edits : List DocumentEdit) :
    (store.applyEdits id version edits).1 ≠ .error Error.cancelled := by
  have hends := store.applyEdits_ends id version edits
  generalize store.applyEdits id version edits = result at hends ⊢
  have hinternal : Error.cancelled.code = .internal := rfl
  cases hends with
  | empty => simp [Error.cancelled]
  | stale _ hstale =>
      intro h
      exact code_of_ensureCurrent hstale (Except.error.inj h ▸ hinternal)
  | misfit _ _ hmisfit =>
      intro h
      obtain rfl := Except.error.inj h
      rcases bind_eq_error.mp hmisfit with hgroups | ⟨_, -, hedited⟩
      · exact code_of_grouped hgroups hinternal
      · exact code_of_edited hedited hinternal
  | unwritten _ _ _ _ hwritten =>
      intro h
      obtain rfl := Except.error.inj h
      obtain ⟨pair, -, fault, hfault⟩ := exists_of_writeBack_eq_error hwritten
      exact refusedWrite_ne_cancelled pair.2.path fault hfault.symm
  | published => simp

theorem commitSync_ne_cancelled (store : Store) (pending : PendingSync) :
    (store.commitSync pending).1 ≠ .error Error.cancelled := by
  cases hsuccessor : pending.successor with
  | none => simp [commitSync, hsuccessor]
  | some successor =>
      rcases store.commitSync_cases hsuccessor with ⟨_, -, -, -, hcommit⟩ | ⟨error, herror, hcommit⟩
      · simp [hcommit]
      · rw [hcommit]
        intro h
        exact code_of_ensureCurrent herror (Except.error.inj h ▸ rfl)

end Store

/-! ### Plans -/

/-- Work that is left and does not fail as cancelled. -/
def Finish.Uncancelled : Finish → Prop
  | .reply _ => True
  | .publish step => ∀ store, (step store).1 ≠ .error Error.cancelled

/-- Engine work that leaves only such work behind. -/
def Outcome.Uncancelled (work : Outcome Error Finish) : Prop :=
  ∀ finish, work = .done finish → finish.Uncancelled

/-- A plan whose engine work is such, whatever store it finds. -/
def Plan.Uncancelled : Plan → Prop
  | .known _ => True
  | .work compute => ∀ store, (compute store).Uncancelled

/-- Checks that let only such plans through. -/
def Plan.AllUncancelled (checked : Except Error Plan) : Prop :=
  ∀ plan, checked = .ok plan → plan.Uncancelled

namespace Plan

theorem AllUncancelled.bind {α : Type} {checked : Except Error α} {next : α → Except Error Plan}
    (h : ∀ value, AllUncancelled (next value)) : AllUncancelled (checked >>= next) := by
  intro plan hplan
  obtain ⟨value, -, hnext⟩ := bind_eq_ok.mp hplan
  exact h value plan hnext

theorem uncancelled_finishEdits (snapshot : Snapshot) (edits : List DocumentEdit) (preview : Bool)
    (answer : Effect → Answer) : (finishEdits snapshot edits preview answer).Uncancelled := by
  unfold finishEdits
  split
  · trivial
  · intro store
    dsimp only
    split
    · simp
    · rename_i hresult
      have hne := store.applyEdits_ne_cancelled snapshot.id snapshot.version edits
      rw [hresult] at hne
      exact fun hcancelled => hne (congrArg Except.error (Except.error.inj hcancelled))

theorem uncancelled_commitSync (pending : PendingSync) (store : Store) :
    (store.commitSync pending).1.map Answer.synced ≠ .error Error.cancelled := by
  have hne := store.commitSync_ne_cancelled pending
  cases hreport : (store.commitSync pending).1 with
  | ok report => simp [Except.map]
  | error error =>
      rw [hreport] at hne
      exact fun hcancelled => hne (congrArg Except.error (Except.error.inj hcancelled))

theorem Leaves.uncancelled {call : Call} {finish : Finish} (h : Leaves call finish) :
    finish.Uncancelled := by
  cases h with
  | reply => trivial
  | load pending => exact fun _ => by simp
  | sync pending => exact uncancelled_commitSync pending
  | rename | act => exact uncancelled_finishEdits _ _ _ _

/-- No call has a publishing step that fails as cancelled. -/
theorem uncancelled_ofCall (engine : Engine) (store : Store) (id : Nat) (call : Call) :
    AllUncancelled (ofCall engine store id call) := by
  intro plan hplan
  have hfits := fits_ofCall hplan
  cases plan with
  | known answer => trivial
  | work compute => exact fun now finish hdone => (hfits now finish hdone).uncancelled

end Plan

/-! ### Requests side by side -/

/-- Requests on their way, by their tokens, with the store that they share. -/
structure Traffic where
  store : Store
  flights : RequestToken → Option Flight
  cancelled : RequestToken → Bool

/-- What can happen next. -/
inductive Action where
  /-- The store changes by none of the requests. -/
  | disturb (store : Store)
  | cancel (token : RequestToken)
  /-- A request is checked; `id` is the number that a load would draw. -/
  | start (token : RequestToken) (id : Nat) (request : Request)
  /-- The engine ends its part of a request, whether or not anyone waits for it. -/
  | compute (token : RequestToken)
  | settle (token : RequestToken)
  | abandon (token : RequestToken)
  | recheck (token : RequestToken)
  | publish (token : RequestToken)

/-- The request that takes an action. -/
def Action.request? : Action → Option RequestToken
  | .disturb _ | .cancel _ => none
  | .start token _ _ | .compute token | .settle token | .abandon token | .recheck token
  | .publish token => some token

namespace Traffic

/-- A store without requests. -/
def idle (store : Store) : Traffic := ⟨store, fun _ => none, fun _ => false⟩

/-- Puts a request somewhere else on its way. -/
def fly (traffic : Traffic) (token : RequestToken) (flight : Flight) : Traffic :=
  { traffic with flights := Function.update traffic.flights token (some flight) }

/-- Takes a request that has been started further. -/
def move (traffic : Traffic) (token : RequestToken) (change : Flight → Flight) : Traffic :=
  match traffic.flights token with
  | some flight => traffic.fly token (change flight)
  | none => traffic

/-- One action. A request is started once, and given up only when its token is cancelled. -/
def step (engine : Engine) (traffic : Traffic) : Action → Traffic
  | .disturb store => { traffic with store }
  | .cancel token => { traffic with cancelled := Function.update traffic.cancelled token true }
  | .start token id request =>
    match traffic.flights token with
    | some _ => traffic
    | none =>
      traffic.fly token (Flight.start engine traffic.store id request (traffic.cancelled token))
  | .compute token => traffic.move token (Flight.compute traffic.store)
  | .settle token => traffic.move token Flight.settle
  | .abandon token => if traffic.cancelled token then traffic.move token Flight.abandon else traffic
  | .recheck token => traffic.move token (Flight.recheck (traffic.cancelled token))
  | .publish token =>
    match traffic.flights token with
    | some flight =>
      { traffic with store := (flight.publish traffic.store).2 }.fly token
        (flight.publish traffic.store).1
    | none => traffic

/-- Actions one after another. -/
def run (engine : Engine) (traffic : Traffic) (actions : List Action) : Traffic :=
  actions.foldl (step engine) traffic

end Traffic

/-- A flight whose publishing step, if it comes to one, does not fail as cancelled. -/
def Flight.Uncancelled : Flight → Prop
  | .answered _ => True
  | .computing compute => ∀ store, (compute store).Uncancelled
  | .computed outcome => outcome.Uncancelled
  | .ready step | .publishing step => ∀ store, (step store).1 ≠ .error Error.cancelled

namespace Flight

variable {flight : Flight}

theorem uncancelled_start (engine : Engine) (store : Store) (id : Nat) (request : Request)
    (cancelled : Bool) : (start engine store id request cancelled).Uncancelled := by
  have hplan : Plan.AllUncancelled (do
      let operation ← Operation.ofText request.operation
      Plan.ofCall engine store id (← Call.decode operation request.arguments)) :=
    .bind fun _ => .bind fun call => Plan.uncancelled_ofCall engine store id call
  unfold start
  dsimp only
  split
  · trivial
  · trivial
  · rename_i hwork
    split
    · trivial
    · exact hplan _ hwork

theorem Uncancelled.compute (h : flight.Uncancelled) (store : Store) :
    (flight.compute store).Uncancelled := by
  cases flight with
  | computing compute => exact h store
  | _ => exact h

theorem Uncancelled.settle (h : flight.Uncancelled) : flight.settle.Uncancelled := by
  cases flight with
  | computed outcome =>
      unfold Flight.settle
      dsimp only
      split
      · trivial
      · trivial
      · rename_i step hstep
        have hdone : outcome = .done (.publish step) := by
          cases outcome <;> simp_all [Outcome.settled]
        exact h _ hdone
  | _ => exact h

theorem Uncancelled.abandon (h : flight.Uncancelled) : flight.abandon.Uncancelled := by
  cases flight with
  | computing | computed => trivial
  | _ => exact h

theorem Uncancelled.recheck (h : flight.Uncancelled) (cancelled : Bool) :
    (flight.recheck cancelled).Uncancelled := by
  cases flight with
  | ready step =>
      cases cancelled with
      | true => trivial
      | false => exact h
  | _ => exact h

theorem Uncancelled.publish (h : flight.Uncancelled) (store : Store) :
    (flight.publish store).1.Uncancelled := by
  cases flight with
  | publishing step => trivial
  | _ => exact h

end Flight

namespace Traffic

variable {engine : Engine} {traffic : Traffic} {token other : RequestToken} {flight : Flight}

theorem fly_flights_self : (traffic.fly token flight).flights token = some flight :=
  Function.update_self _ _ _

theorem fly_flights_of_ne (h : other ≠ token) :
    (traffic.fly token flight).flights other = traffic.flights other :=
  Function.update_of_ne h _ _

/-- Every flight of the traffic is such that it does not publish and fail as cancelled. -/
def Uncancelled (traffic : Traffic) : Prop :=
  ∀ token flight, traffic.flights token = some flight → flight.Uncancelled

theorem Uncancelled.fly (h : traffic.Uncancelled) (hflight : flight.Uncancelled) :
    (traffic.fly token flight).Uncancelled := by
  intro other found hfound
  by_cases hsame : other = token
  · subst hsame
    rw [fly_flights_self] at hfound
    exact Option.some.inj hfound ▸ hflight
  · rw [fly_flights_of_ne hsame] at hfound
    exact h other found hfound

theorem Uncancelled.move (h : traffic.Uncancelled) {change : Flight → Flight}
    (hchange : ∀ flight : Flight, flight.Uncancelled → (change flight).Uncancelled) :
    (traffic.move token change).Uncancelled := by
  unfold Traffic.move
  split
  · rename_i flight hflight
    exact h.fly (hchange flight (h token flight hflight))
  · exact h

theorem Uncancelled.step (h : traffic.Uncancelled) (action : Action) :
    (traffic.step engine action).Uncancelled := by
  cases action with
  | disturb | cancel => exact h
  | start token id request =>
      rw [Traffic.step]
      split
      · exact h
      · exact h.fly (Flight.uncancelled_start engine traffic.store id request _)
  | compute token => exact h.move fun _ hflight => hflight.compute traffic.store
  | settle token => exact h.move fun _ hflight => hflight.settle
  | abandon token =>
      rw [Traffic.step]
      split
      · exact h.move fun _ hflight => hflight.abandon
      · exact h
  | recheck token => exact h.move fun _ hflight => hflight.recheck _
  | publish token =>
      rw [Traffic.step]
      split
      · rename_i flight hflight
        exact Uncancelled.fly (fun other found hfound => h other found hfound)
          ((h token flight hflight).publish traffic.store)
      · exact h

theorem Uncancelled.run (h : traffic.Uncancelled) (actions : List Action) :
    (traffic.run engine actions).Uncancelled := by
  induction actions generalizing traffic with
  | nil => exact h
  | cons action rest ih => exact ih (h.step action)

/-- An answer stays as it is, whatever is done. -/
theorem step_of_answered {envelope : Envelope}
    (h : traffic.flights token = some (.answered envelope)) (action : Action) :
    (traffic.step engine action).flights token = some (.answered envelope) := by
  have hmove : ∀ (other : RequestToken) (change : Flight → Flight),
      change (.answered envelope) = .answered envelope →
      (traffic.move other change).flights token = some (.answered envelope) := by
    intro other change hchange
    by_cases hsame : token = other
    · subst hsame
      rw [move, h]
      exact fly_flights_self.trans (congrArg some hchange)
    · unfold move
      split
      · exact (fly_flights_of_ne hsame).trans h
      · exact h
  cases action with
  | disturb | cancel => exact h
  | start other id request =>
      rw [step]
      split
      · exact h
      · rename_i hnone
        have hother : token ≠ other := by
          rintro rfl
          rw [h] at hnone
          cases hnone
        exact (fly_flights_of_ne hother).trans h
  | compute other => exact hmove other _ rfl
  | settle other => exact hmove other _ rfl
  | abandon other =>
      rw [step]
      split
      · exact hmove other _ rfl
      · exact h
  | recheck other => exact hmove other _ rfl
  | publish other =>
      rw [step]
      by_cases hsame : token = other
      · subst hsame
        rw [h]
        exact fly_flights_self
      · split
        · exact (fly_flights_of_ne hsame).trans h
        · exact h

theorem run_of_answered {envelope : Envelope}
    (h : traffic.flights token = some (.answered envelope)) (actions : List Action) :
    (traffic.run engine actions).flights token = some (.answered envelope) := by
  induction actions generalizing traffic with
  | nil => exact h
  | cons action rest ih => exact ih (step_of_answered h action)

/-- A publishing step gives the store what it makes of it and the request its answer. -/
theorem step_publish {step : Store → Except Error Answer × Store}
    (h : traffic.flights token = some (.publishing step)) :
    (traffic.step engine (.publish token)).flights token =
        some (.answered (step traffic.store).1) ∧
      (traffic.step engine (.publish token)).store = (step traffic.store).2 := by
  rw [Traffic.step, h]
  exact ⟨fly_flights_self, rfl⟩

theorem move_store (traffic : Traffic) (token : RequestToken) (change : Flight → Flight) :
    (traffic.move token change).store = traffic.store := by
  unfold move
  split <;> rfl

/-- The only action of a request that touches the store is its publishing step. -/
theorem publishing_of_store_ne {action : Action} (htoken : action.request? = some token)
    (hstore : (traffic.step engine action).store ≠ traffic.store) :
    action = .publish token ∧ ∃ step, traffic.flights token = some (.publishing step) := by
  cases action with
  | disturb | cancel => cases htoken
  | start =>
      refine absurd ?_ hstore
      rw [step]
      split <;> rfl
  | compute => exact absurd (move_store _ _ _) hstore
  | settle => exact absurd (move_store _ _ _) hstore
  | abandon =>
      refine absurd ?_ hstore
      rw [step]
      split
      · exact move_store _ _ _
      · rfl
  | recheck => exact absurd (move_store _ _ _) hstore
  | publish other =>
      obtain rfl := Option.some.inj htoken
      refine ⟨rfl, ?_⟩
      rw [step] at hstore
      split at hstore
      · rename_i flight hflight
        cases flight with
        | publishing step => exact ⟨step, hflight⟩
        | _ => exact absurd rfl hstore
      · exact absurd rfl hstore

theorem run_split (before : List Action) (action : Action) (after : List Action) :
    traffic.run engine (before ++ action :: after) =
      ((traffic.run engine before).step engine action).run engine after := by
  simp [run, List.foldl_append]

/-- Once a request has taken its publishing step, what that came to is its answer for good. -/
theorem answer_of_publish (before after : List Action) {step : Store → Except Error Answer × Store}
    (h : (traffic.run engine before).flights token = some (.publishing step)) :
    (traffic.run engine (before ++ .publish token :: after)).flights token =
      some (.answered (step (traffic.run engine before).store).1) := by
  rw [run_split]
  exact run_of_answered (step_publish h).1 after

end Traffic

/-- In every run of any requests side by side: a request that is answered as cancelled changes the store
with none of its actions, neither before the answer nor after it; a request that takes its publishing
step has the outcome of that step as its answer, whatever becomes of its token; and no other action of a
request touches the store. -/
theorem cancelled_request_publishes_nothing (engine : Engine) (store : Store)
    (actions : List Action) (token : RequestToken) :
    (((Traffic.idle store).run engine actions).flights token =
        some (.answered (.error Error.cancelled)) →
      ∀ (before : List Action) (action : Action) (after : List Action),
        actions = before ++ action :: after → action.request? = some token →
        (((Traffic.idle store).run engine before).step engine action).store =
          ((Traffic.idle store).run engine before).store) ∧
    (∀ (before after : List Action) (step : Store → Except Error Answer × Store),
      actions = before ++ .publish token :: after →
      ((Traffic.idle store).run engine before).flights token = some (.publishing step) →
      ((Traffic.idle store).run engine actions).flights token =
          some (.answered (step ((Traffic.idle store).run engine before).store).1) ∧
        (((Traffic.idle store).run engine before).step engine (.publish token)).store =
          (step ((Traffic.idle store).run engine before).store).2) ∧
    (∀ (before : List Action) (action : Action) (after : List Action),
      actions = before ++ action :: after → action.request? = some token →
      (((Traffic.idle store).run engine before).step engine action).store ≠
        ((Traffic.idle store).run engine before).store →
      action = .publish token ∧
        ∃ step, ((Traffic.idle store).run engine before).flights token = some (.publishing step)) := by
  refine ⟨?_, ?_, ?_⟩
  · rintro hcancelled before action after rfl htoken
    by_contra hstore
    obtain ⟨rfl, step, hstep⟩ := Traffic.publishing_of_store_ne htoken hstore
    -- The request has published, so its answer is that of a publishing step.
    have hidle : (Traffic.idle store).Uncancelled := fun _ _ hnone => by cases hnone
    have hanswer := Traffic.answer_of_publish before after hstep
    rw [hcancelled] at hanswer
    exact hidle.run before token _ hstep _ (Flight.answered.inj (Option.some.inj hanswer)).symm
  · rintro before after step rfl hstep
    exact ⟨Traffic.answer_of_publish before after hstep, (Traffic.step_publish hstep).2⟩
  · rintro before action after - htoken hstore
    exact Traffic.publishing_of_store_ne htoken hstore

/-- A load is given up while the engine is at work; the engine goes on to its end. -/
def soloAbandoned : List Action :=
  [.start 0 0 ⟨"LoadWorkspace", .object [("path", .string "/")]⟩, .cancel 0, .abandon 0, .compute 0,
    .settle 0, .recheck 0, .publish 0]

/-- The load is answered as cancelled, and the last of its actions leaves the store as it is. -/
theorem soloAbandoned_publishes_nothing :
    ((Traffic.idle { disk := soloDisk "x" }).run soloEngine soloAbandoned).flights 0 =
        some (.answered (.error Error.cancelled)) ∧
      (((Traffic.idle { disk := soloDisk "x" }).run soloEngine (soloAbandoned.take 6)).step soloEngine
          (.publish 0)).store =
        ((Traffic.idle { disk := soloDisk "x" }).run soloEngine (soloAbandoned.take 6)).store := by
  have hanswer : ((Traffic.idle { disk := soloDisk "x" }).run soloEngine soloAbandoned).flights 0 =
      some (.answered (.error Error.cancelled)) := rfl
  refine ⟨hanswer, ?_⟩
  exact (cancelled_request_publishes_nothing soloEngine { disk := soloDisk "x" } soloAbandoned 0).1
    hanswer (soloAbandoned.take 6) (.publish 0) [] rfl rfl

end CodeIntel
