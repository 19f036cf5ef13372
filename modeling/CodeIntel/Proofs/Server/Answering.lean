import CodeIntel.Proofs.Server.Reading
import CodeIntel.Proofs.Workspace.History
import CodeIntel.Server.Run
import Mathlib.Data.List.Nodup
import Mathlib.Data.List.Perm.Basic

/-! Every line that asks for an answer gets one, and one only. Lines are read, requests are started, run,
released and answered in any order, and cancellations fall anywhere; ids may repeat. At each moment the
ids of the responses, of the requests on their way and of the lines not yet read make up what the whole
text asks for. A request leaves the registry before it is answered, so that nothing of a run is left
there at its end; and from wherever a run has come to, it can be brought to its end. -/

namespace CodeIntel

/-- The ids under which a line is answered. -/
def Line.answers : Line → List Json
  | .blank | .cancel _ => []
  | .malformed _ => [.null]
  | .request id _ => [id]

/-- The ids under which some lines are to be answered. -/
def asked (lines : List String) : List Json := lines.flatMap fun line => (Line.ofText line).answers

/-- How many steps of its way a request has behind it. -/
def Stage.rank : Stage → Nat
  | .waiting => 0
  | .flying (.computing _) => 1
  | .flying (.computed _) => 2
  | .flying (.ready _) => 3
  | .flying (.publishing _) => 4
  | .flying (.answered _) => 5
  | .released _ => 6

/-- A request of a run is registered as long as it is not released. -/
def Task.Registered (task : Task) (key : String) (ticket : Nat) : Prop :=
  task.registration = some (key, ticket) ∧ task.stage.rank < 6

namespace Run

variable {engine : Engine} {run next : Run}

/-- What a move of a request can do: nothing; take it further on its way, with nothing else changed but
the store; take it out of the registry once it is answered; or write its response. -/
inductive Advanced (run : Run) : Run → Prop where
  | idle : Advanced run run
  | fly {task : Task} {store : Store} (flight : Flight) : task ∈ run.tasks → task.stage.rank < 6 →
      Advanced run
        ({ run with server := { run.server with store } }.setStage task.token (.flying flight))
  | release {task : Task} {envelope : Envelope} : task ∈ run.tasks →
      task.stage = .flying (.answered envelope) →
      Advanced run
        ({ run with server := run.server.forget task.registration }.setStage task.token
          (.released envelope))
  | send {task : Task} {envelope : Envelope} : task ∈ run.tasks → task.stage = .released envelope →
      Advanced run
        { run with
          tasks := run.tasks.filter fun other => other.token ≠ task.token
          sent := run.sent ++ [⟨task.id, envelope⟩] }

theorem rank_flying (flight : Flight) : (Stage.flying flight).rank < 6 := by
  cases flight <;> simp [Stage.rank]

theorem advanced_advance (engine : Engine) (move : Move) {task : Task} (hmem : task ∈ run.tasks) :
    run.Advanced (run.advance engine move task) := by
  unfold advance
  split
  · rename_i hstage
    exact .fly _ hmem (by simp [hstage, Stage.rank])
  · rename_i hstage
    exact .fly _ hmem (hstage ▸ rank_flying _)
  · rename_i hstage
    exact .fly _ hmem (hstage ▸ rank_flying _)
  · rename_i hstage
    split
    · exact .fly _ hmem (hstage ▸ rank_flying _)
    · exact .idle
  · rename_i hstage
    exact .fly _ hmem (hstage ▸ rank_flying _)
  · rename_i hstage
    exact .fly _ hmem (hstage ▸ rank_flying _)
  · rename_i hstage
    exact .release hmem hstage
  · rename_i hstage
    exact .send hmem hstage
  · exact .idle

theorem advanced_step (engine : Engine) (run : Run) {move : Move} (hmove : move ≠ .read) :
    run.Advanced (run.step engine move) := by
  cases move with
  | read => exact absurd rfl hmove
  | start token | compute token | settle token | abandon token | recheck token | publish token
  | release token | send token =>
      rw [step]
      cases htask : run.task? token with
      | none => exact .idle
      | some task => exact advanced_advance engine _ (List.mem_of_find?_eq_some htask)

/-- What holds of a run and is kept by reading a line and by every move of a request holds of every
run that it is the beginning of. -/
theorem steps_induction (holds : Run → Prop)
    (hread : ∀ {run : Run} {line : String} {rest : List String}, holds run →
      run.unread = line :: rest → holds ({ run with unread := rest }.accept (Line.ofText line)))
    (hadvanced : ∀ {run next : Run}, holds run → run.Advanced next → holds next)
    (h : holds run) (moves : List Move) : holds (run.steps engine moves) := by
  induction moves generalizing run with
  | nil => exact h
  | cons move rest ih =>
      apply ih
      by_cases hmove : move = .read
      · subst hmove
        rw [step, read]
        split
        · exact h
        · rename_i hunread
          exact hread h hunread
      · exact hadvanced h (advanced_step engine run hmove)

@[simp]
theorem ids_setStage (run : Run) (token : RequestToken) (stage : Stage) :
    (run.setStage token stage).tasks.map Task.id = run.tasks.map Task.id := by
  rw [setStage, List.map_map]
  apply List.map_congr_left
  intro task _
  dsimp only [Function.comp]
  split <;> rfl

@[simp]
theorem tokens_setStage (run : Run) (token : RequestToken) (stage : Stage) :
    (run.setStage token stage).tasks.map Task.token = run.tasks.map Task.token := by
  rw [setStage, List.map_map]
  apply List.map_congr_left
  intro task _
  dsimp only [Function.comp]
  split <;> rfl

theorem mem_setStage {token : RequestToken} {stage : Stage} {task : Task} :
    task ∈ (run.setStage token stage).tasks ↔
      ∃ old ∈ run.tasks, (if old.token = token then { old with stage } else old) = task := by
  rw [setStage, List.mem_map]

/-! ### Ids -/

/-- The ids of the responses, of the requests on their way and of the lines that are not read make up
what was asked for, and no two requests share a token. -/
structure Accounted (lines : List String) (run : Run) : Prop where
  ids : (run.sent.map Response.id ++ run.tasks.map Task.id ++ asked run.unread).Perm (asked lines)
  distinct : (run.tasks.map Task.token).Nodup
  below : ∀ task ∈ run.tasks, task.token < run.server.nextToken

theorem takeIn_task (server : Server) (id : Json) (request : Request) :
    (server.takeIn id request).1.id = id ∧ (server.takeIn id request).1.token = server.nextToken ∧
      (server.takeIn id request).2.nextToken = server.nextToken + 1 := by
  rw [Server.takeIn]
  split <;> exact ⟨rfl, rfl, rfl⟩

theorem nextToken_forget (server : Server) (registration : Option (String × Nat)) :
    (server.forget registration).nextToken = server.nextToken := by
  cases registration <;> rfl

theorem nextToken_cancel (server : Server) (key : Option String) :
    (server.cancel key).nextToken = server.nextToken := by
  cases key <;> rfl

section

variable {lines : List String}

/-- A request that is taken in gets a token that no other has. -/
theorem tokens_takeIn {server : Server} {tasks : List Task} (hdistinct : (tasks.map Task.token).Nodup)
    (hbelow : ∀ task ∈ tasks, task.token < server.nextToken) (id : Json) (request : Request) :
    ((tasks ++ [(server.takeIn id request).1]).map Task.token).Nodup ∧
      ∀ task ∈ tasks ++ [(server.takeIn id request).1],
        task.token < (server.takeIn id request).2.nextToken := by
  obtain ⟨-, htoken, hnext⟩ := takeIn_task server id request
  rw [List.map_append, List.map_singleton, htoken, hnext]
  refine ⟨hdistinct.append (List.nodup_singleton _) fun token hmem hnew => ?_, fun task hmem => ?_⟩
  · obtain ⟨task, htask, rfl⟩ := List.mem_map.mp hmem
    exact Nat.ne_of_lt (hbelow task htask) (List.mem_singleton.mp hnew)
  · rcases List.mem_append.mp hmem with hmem | hmem
    · exact Nat.lt_succ_of_lt (hbelow task hmem)
    · rw [List.mem_singleton.mp hmem, htoken]
      exact Nat.lt_succ_self _

theorem Accounted.accept {line : String} {rest : List String} (h : run.Accounted lines)
    (hunread : run.unread = line :: rest) :
    ({ run with unread := rest }.accept (Line.ofText line)).Accounted lines := by
  have hids := h.ids
  rw [hunread, asked, List.flatMap_cons, ← asked] at hids
  cases hline : Line.ofText line with
  | blank =>
      rw [hline] at hids
      exact ⟨hids, h.distinct, h.below⟩
  | cancel key =>
      rw [hline] at hids
      refine ⟨hids, h.distinct, ?_⟩
      intro task hmem
      rw [Run.accept, nextToken_cancel]
      exact h.below task hmem
  | malformed fault =>
      rw [hline] at hids
      refine ⟨List.Perm.trans ?_ hids, h.distinct, h.below⟩
      -- The id moves from in front of the unread lines to the end of the responses.
      simp only [Run.accept, Line.answers, List.map_append, List.map_singleton, List.append_assoc]
      apply List.Perm.append_left
      rw [← List.append_assoc, ← List.append_assoc]
      exact List.perm_append_comm.append_right _
  | request id request =>
      rw [hline] at hids
      obtain ⟨hdistinct, hbelow⟩ := tokens_takeIn h.distinct h.below id request
      refine ⟨?_, hdistinct, hbelow⟩
      simpa [Run.accept, Line.answers, (takeIn_task run.server id request).1] using hids

theorem Accounted.setStage (h : run.Accounted lines) (token : RequestToken) (stage : Stage)
    {server : Server} (hserver : server.nextToken = run.server.nextToken) :
    ({ run with server }.setStage token stage).Accounted lines := by
  refine ⟨?_, ?_, ?_⟩
  · rw [ids_setStage]
    exact h.ids
  · rw [tokens_setStage]
    exact h.distinct
  · intro task hmem
    obtain ⟨old, hold, rfl⟩ := mem_setStage.mp hmem
    have hbelow := h.below old hold
    rw [← hserver] at hbelow
    split <;> exact hbelow

theorem perm_cons_filter {tasks : List Task} (hdistinct : (tasks.map Task.token).Nodup) {task : Task}
    (hmem : task ∈ tasks) : tasks.Perm (task :: tasks.filter fun other => other.token ≠ task.token) := by
  induction tasks with
  | nil => cases hmem
  | cons first rest ih =>
      rw [List.map_cons, List.nodup_cons] at hdistinct
      rcases List.mem_cons.mp hmem with rfl | hrest
      · have hothers : (rest.filter fun other => other.token ≠ task.token) = rest := by
          apply List.filter_eq_self.mpr
          intro other hother
          have hne : other.token ≠ task.token := by
            intro hsame
            exact hdistinct.1 (hsame ▸ List.mem_map_of_mem hother)
          simpa using hne
        rw [List.filter_cons_of_neg (by simp), hothers]
      · have hne : first.token ≠ task.token := by
          intro hsame
          exact hdistinct.1 (hsame ▸ List.mem_map_of_mem hrest)
        rw [List.filter_cons_of_pos (by simpa using hne)]
        exact ((ih hdistinct.2 hrest).cons first).trans (.swap _ _ _)

theorem Accounted.advanced (h : run.Accounted lines) (hnext : run.Advanced next) :
    next.Accounted lines := by
  cases hnext with
  | idle => exact h
  | fly flight => exact h.setStage _ _ rfl
  | release => exact h.setStage _ _ (nextToken_forget _ _)
  | @send task envelope hmem hstage =>
      refine ⟨?_, ?_, ?_⟩
      · refine List.Perm.trans ?_ h.ids
        have htasks := (perm_cons_filter h.distinct hmem).map Task.id
        simp only [List.map_append, List.map_singleton, List.append_assoc]
        apply List.Perm.append_left
        exact htasks.symm.append_right _
      · exact h.distinct.sublist (List.filter_sublist.map _)
      · intro other hother
        exact h.below other (List.mem_of_mem_filter hother)

end

/-! ### The registry -/

/-- What is registered was registered before the run, or belongs to a request that is not released. The
tickets of the run are those from a number on, and no entry with a lower ticket is touched. -/
structure Listed (server : Server) (run : Run) : Prop where
  entries : ∀ key, ∀ entry ∈ run.server.registry.under key, entry ∈ server.registry.under key ∨
    ∃ task ∈ run.tasks, task.Registered key entry.ticket
  later : ∀ task ∈ run.tasks, ∀ key ticket, task.registration = some (key, ticket) →
    server.registry.nextTicket ≤ ticket
  next : server.registry.nextTicket ≤ run.server.registry.nextTicket
  kept : ∀ key, ((run.server.registry.under key).filter fun entry =>
      entry.ticket < server.registry.nextTicket) =
    (server.registry.under key).filter fun entry => entry.ticket < server.registry.nextTicket

section

variable {server : Server}

theorem nextTicket_forget (server : Server) (registration : Option (String × Nat)) :
    (server.forget registration).registry.nextTicket = server.registry.nextTicket := by
  cases registration with
  | none => rfl
  | some entered =>
      rw [Server.forget, Registry.finish]
      split <;> rfl

theorem under_forget (server : Server) (registration : Option (String × Nat)) (key : String) :
    (server.forget registration).registry.under key =
      (server.registry.under key).filter fun entry => registration ≠ some (key, entry.ticket) := by
  cases registration with
  | none => simp [Server.forget]
  | some entered =>
      obtain ⟨name, ticket⟩ := entered
      by_cases hkey : key = name
      · subst hkey
        simp [Server.forget, eq_comm]
      · simp [Server.forget, Registry.under_finish_of_ne _ ticket hkey, Ne.symm hkey]

theorem under_register (registry : Registry) (key other : String) (token : RequestToken) :
    (registry.register key token).2.under other =
      registry.under other ++ if other = key then [⟨registry.nextTicket, token⟩] else [] := by
  split
  · rename_i hkey
    rw [hkey, Registry.under_register_self]
  · rename_i hkey
    rw [Registry.under_register_of_ne registry token hkey, List.append_nil]

/-- A request that is taken in is registered if it has an id, under a ticket of the run. -/
theorem Listed.takeIn (h : run.Listed server) (id : Json) (request : Request) :
    { run with
      server := (run.server.takeIn id request).2
      tasks := run.tasks ++ [(run.server.takeIn id request).1] }.Listed server := by
  have hentries : ∀ added key, ∀ entry ∈ run.server.registry.under key,
      entry ∈ server.registry.under key ∨
        ∃ task ∈ run.tasks ++ [added], task.Registered key entry.ticket := by
    intro added key entry hentry
    refine (h.entries key entry hentry).imp_right ?_
    rintro ⟨task, hmem, hregistered⟩
    exact ⟨task, List.mem_append_left _ hmem, hregistered⟩
  rw [Server.takeIn]
  cases requestKey? id with
  | none =>
      refine ⟨hentries _, ?_, h.next, h.kept⟩
      intro task hmem key ticket hregistration
      rcases List.mem_append.mp hmem with hmem | hmem
      · exact h.later task hmem key ticket hregistration
      · rw [List.mem_singleton.mp hmem] at hregistration
        cases hregistration
  | some name =>
      refine ⟨?_, ?_, Nat.le_succ_of_le h.next, ?_⟩
      · intro key entry hentry
        rw [under_register, List.mem_append] at hentry
        rcases hentry with hentry | hentry
        · exact hentries _ key entry hentry
        · split at hentry
          · rename_i hkey
            rw [List.mem_singleton.mp hentry, hkey]
            exact .inr ⟨_, List.mem_append_right _ (List.mem_singleton_self _), rfl, by simp [Stage.rank]⟩
          · cases hentry
      · intro task hmem key ticket hregistration
        rcases List.mem_append.mp hmem with hmem | hmem
        · exact h.later task hmem key ticket hregistration
        · rw [List.mem_singleton.mp hmem] at hregistration
          cases hregistration
          exact h.next
      · intro key
        rw [under_register, List.filter_append, h.kept key]
        have hnew : ¬ run.server.registry.nextTicket < server.registry.nextTicket :=
          Nat.not_lt.mpr h.next
        split <;> simp [hnew]

theorem Listed.accept {line : String} {rest : List String} (h : run.Listed server) :
    ({ run with unread := rest }.accept (Line.ofText line)).Listed server := by
  have hread : { run with unread := rest }.Listed server := ⟨h.entries, h.later, h.next, h.kept⟩
  cases Line.ofText line with
  | blank | malformed => exact ⟨h.entries, h.later, h.next, h.kept⟩
  | cancel key => cases key <;> exact ⟨h.entries, h.later, h.next, h.kept⟩
  | request id request => exact hread.takeIn id request

theorem Listed.fly (h : run.Listed server) (token : RequestToken) (flight : Flight) {store : Store} :
    ({ run with server := { run.server with store } }.setStage token (.flying flight)).Listed
      server := by
  refine ⟨?_, ?_, h.next, h.kept⟩
  · intro key entry hentry
    rcases h.entries key entry hentry with hold | ⟨other, hother, hregistration, hrank⟩
    · exact .inl hold
    · refine .inr ⟨_, mem_setStage.mpr ⟨other, hother, rfl⟩, ?_⟩
      split
      · exact ⟨hregistration, rank_flying flight⟩
      · exact ⟨hregistration, hrank⟩
  · intro other hother key ticket hregistration
    obtain ⟨old, hold, rfl⟩ := mem_setStage.mp hother
    apply h.later old hold key ticket
    split at hregistration <;> exact hregistration

theorem eq_of_token_eq {tasks : List Task} (hdistinct : (tasks.map Task.token).Nodup) {task other : Task}
    (hmem : task ∈ tasks) (hother : other ∈ tasks) (hsame : other.token = task.token) : other = task :=
  List.inj_on_of_nodup_map hdistinct hother hmem hsame

theorem Listed.release (h : run.Listed server) (hdistinct : (run.tasks.map Task.token).Nodup)
    {task : Task} (hmem : task ∈ run.tasks) (envelope : Envelope) :
    ({ run with server := run.server.forget task.registration }.setStage task.token
      (.released envelope)).Listed server := by
  refine ⟨?_, ?_, ?_, ?_⟩
  · intro key entry hentry
    have hentry : entry ∈ (run.server.forget task.registration).registry.under key := hentry
    rw [under_forget, List.mem_filter, decide_eq_true_iff] at hentry
    rcases h.entries key entry hentry.1 with hold | ⟨other, hother, hregistered⟩
    · exact .inl hold
    · refine .inr ⟨_, mem_setStage.mpr ⟨other, hother, rfl⟩, ?_⟩
      split
      · rename_i hsame
        rw [eq_of_token_eq hdistinct hmem hother hsame] at hregistered
        exact absurd hregistered.1 hentry.2
      · exact hregistered
  · intro other hother key ticket hregistration
    obtain ⟨old, hold, rfl⟩ := mem_setStage.mp hother
    apply h.later old hold key ticket
    split at hregistration <;> exact hregistration
  · exact (nextTicket_forget _ _).symm ▸ h.next
  · intro key
    rw [← h.kept key]
    change ((run.server.forget task.registration).registry.under key).filter _ = _
    rw [under_forget, List.filter_filter]
    apply List.filter_congr
    intro entry _
    -- The ticket that goes is one of the run, and so not a low one.
    have hlater := h.later task hmem key entry.ticket
    by_cases hregistration : task.registration = some (key, entry.ticket)
    · simp [hregistration, hlater hregistration]
    · simp [hregistration]

theorem Listed.send (h : run.Listed server) (hdistinct : (run.tasks.map Task.token).Nodup)
    {task : Task} {envelope : Envelope} (hmem : task ∈ run.tasks)
    (hstage : task.stage = .released envelope) (sent : List Response) :
    { run with tasks := run.tasks.filter fun other => other.token ≠ task.token, sent }.Listed
      server := by
  refine ⟨?_, ?_, h.next, h.kept⟩
  · intro key entry hentry
    rcases h.entries key entry hentry with hold | ⟨other, hother, hregistered⟩
    · exact .inl hold
    · have hne : other.token ≠ task.token := by
        intro hsame
        have hrank := hregistered.2
        rw [eq_of_token_eq hdistinct hmem hother hsame, hstage] at hrank
        exact Nat.lt_irrefl 6 hrank
      exact .inr ⟨other, List.mem_filter.mpr ⟨hother, by simpa using hne⟩, hregistered⟩
  · intro other hother
    exact h.later other (List.mem_of_mem_filter hother)

theorem Listed.advanced (h : run.Listed server) (hdistinct : (run.tasks.map Task.token).Nodup)
    (hnext : run.Advanced next) : next.Listed server := by
  cases hnext with
  | idle => exact h
  | fly flight => exact h.fly _ _
  | release hmem => exact h.release hdistinct hmem _
  | send hmem hstage => exact h.send hdistinct hmem hstage _

end

/-! ### The end of a run -/

/-- Every line is read and no request is on its way. -/
def Drained (run : Run) : Prop := run.unread = [] ∧ run.tasks = []

/-- How far at least the request of a token has come, if it is still on its way. -/
def Reached (run : Run) (token : RequestToken) (rank : Nat) : Prop :=
  ∀ task, run.task? token = some task → rank ≤ task.stage.rank

theorem task?_setStage_self (run : Run) (token : RequestToken) (stage : Stage) :
    (run.setStage token stage).task? token =
      (run.task? token).map fun task => { task with stage } := by
  rw [task?, task?, setStage, List.find?_map]
  have hsame : (run.tasks.find? ((fun task => decide (task.token = token)) ∘ fun task =>
      if task.token = token then { task with stage } else task)) =
        run.tasks.find? fun task => task.token = token := by
    congr 1
    funext task
    dsimp only [Function.comp]
    split <;> rfl
  rw [hsame]
  cases hfound : run.tasks.find? fun task => task.token = token with
  | none => rfl
  | some task =>
      have htoken : task.token = token := by simpa using List.find?_some hfound
      simp [htoken]

theorem reached_setStage (run : Run) {token : RequestToken} {stage : Stage} {rank : Nat}
    (hrank : rank ≤ stage.rank) : (run.setStage token stage).Reached token rank := by
  intro task htask
  rw [task?_setStage_self] at htask
  obtain ⟨old, -, rfl⟩ := Option.map_eq_some_iff.mp htask
  exact hrank

theorem reached_of_task? {token : RequestToken} {task : Task} (htask : run.task? token = some task)
    {rank : Nat} (hrank : rank ≤ task.stage.rank) : run.Reached token rank := by
  intro other hother
  rw [htask, Option.some.injEq] at hother
  exact hother ▸ hrank

theorem rank_compute (flight : Flight) (store : Store) :
    2 ≤ (Stage.flying (flight.compute store)).rank := by
  cases flight <;> simp [Flight.compute, Stage.rank]

theorem rank_settle {flight : Flight} (hrank : 2 ≤ (Stage.flying flight).rank) :
    3 ≤ (Stage.flying flight.settle).rank := by
  cases flight with
  | computing compute => simp [Stage.rank] at hrank
  | computed outcome =>
      rw [Flight.settle]
      split <;> simp [Stage.rank]
  | ready step | publishing step => simp [Flight.settle, Stage.rank]
  | answered envelope => simp [Flight.settle, Stage.rank]

theorem rank_recheck {flight : Flight} (cancelled : Bool) (hrank : 3 ≤ (Stage.flying flight).rank) :
    4 ≤ (Stage.flying (flight.recheck cancelled)).rank := by
  cases flight with
  | computing compute => simp [Stage.rank] at hrank
  | computed outcome => simp [Stage.rank] at hrank
  | ready step =>
      rw [Flight.recheck]
      split <;> simp [Stage.rank]
  | publishing step => simp [Flight.recheck, Stage.rank]
  | answered envelope => simp [Flight.recheck, Stage.rank]

theorem rank_publish {flight : Flight} (store : Store) (hrank : 4 ≤ (Stage.flying flight).rank) :
    5 ≤ (Stage.flying (flight.publish store).1).rank := by
  cases flight with
  | computing compute => simp [Stage.rank] at hrank
  | computed outcome => simp [Stage.rank] at hrank
  | ready step => simp [Stage.rank] at hrank
  | publishing step => simp [Flight.publish, Stage.rank]
  | answered envelope => simp [Flight.publish, Stage.rank]

section

variable {token : RequestToken} {move : Move} {rank : Nat}

/-- A move that takes a request from a rank to the next one; a request that is released stays so. -/
theorem Reached.step (h : run.Reached token rank) (hlow : 0 < rank) (hhigh : rank < 6)
    (hstep : run.step engine move =
      match run.task? token with
      | some task => run.advance engine move task
      | none => run)
    (hreleased : ∀ task envelope, task.stage = .released envelope → run.advance engine move task = run)
    (hflying : ∀ task flight, task.token = token → task.stage = .flying flight →
      rank ≤ (Stage.flying flight).rank → (run.advance engine move task).Reached token (rank + 1)) :
    (run.step engine move).Reached token (rank + 1) := by
  cases htask : run.task? token with
  | none =>
      rw [hstep, htask]
      intro task hsome
      rw [htask] at hsome
      cases hsome
  | some task =>
      have hrank := h task htask
      rw [hstep, htask]
      cases hstage : task.stage with
      | waiting =>
          rw [hstage] at hrank
          exact absurd hrank (Nat.not_le.mpr hlow)
      | flying flight =>
          have htoken : task.token = token := by simpa using List.find?_some htask
          exact hflying task flight htoken hstage (hstage ▸ hrank)
      | released envelope =>
          simp only [hreleased task envelope hstage]
          exact reached_of_task? htask (hstage ▸ hhigh)

theorem reached_start (engine : Engine) (run : Run) (token : RequestToken) :
    (run.step engine (.start token)).Reached token 1 := by
  cases htask : run.task? token with
  | none =>
      simp only [step, htask]
      intro task hsome
      rw [htask] at hsome
      cases hsome
  | some task =>
      have htoken : task.token = token := by simpa using List.find?_some htask
      simp only [step, htask, advance]
      cases hstage : task.stage with
      | waiting =>
          simp only [start, htoken]
          apply reached_setStage
          rw [Flight.start]
          split
          · simp [Stage.rank]
          · simp [Stage.rank]
          · split <;> simp [Stage.rank]
      | flying flight =>
          apply reached_of_task? htask
          rw [hstage]
          cases flight <;> simp [Stage.rank]
      | released envelope =>
          apply reached_of_task? htask
          simp [hstage, Stage.rank]

theorem Reached.compute (h : run.Reached token 1) (engine : Engine) :
    (run.step engine (.compute token)).Reached token 2 := by
  apply h.step (by decide) (by decide) rfl
  · intro task envelope hstage
    simp only [advance, hstage]
  · intro task flight htoken hstage hrank
    simp only [advance, hstage, htoken]
    exact reached_setStage _ (rank_compute flight _)

theorem Reached.settle (h : run.Reached token 2) (engine : Engine) :
    (run.step engine (.settle token)).Reached token 3 := by
  apply h.step (by decide) (by decide) rfl
  · intro task envelope hstage
    simp only [advance, hstage]
  · intro task flight htoken hstage hrank
    simp only [advance, hstage, htoken]
    exact reached_setStage _ (rank_settle hrank)

theorem Reached.recheck (h : run.Reached token 3) (engine : Engine) :
    (run.step engine (.recheck token)).Reached token 4 := by
  apply h.step (by decide) (by decide) rfl
  · intro task envelope hstage
    simp only [advance, hstage]
  · intro task flight htoken hstage hrank
    simp only [advance, hstage, htoken]
    exact reached_setStage _ (rank_recheck _ hrank)

theorem Reached.publish (h : run.Reached token 4) (engine : Engine) :
    (run.step engine (.publish token)).Reached token 5 := by
  apply h.step (by decide) (by decide) rfl
  · intro task envelope hstage
    simp only [advance, hstage]
  · intro task flight htoken hstage hrank
    simp only [advance, hstage, Run.publish, htoken]
    exact reached_setStage _ (rank_publish _ hrank)

theorem Reached.release (h : run.Reached token 5) (engine : Engine) :
    (run.step engine (.release token)).Reached token 6 := by
  apply h.step (by decide) (by decide) rfl
  · intro task envelope hstage
    simp only [advance, hstage]
  · intro task flight htoken hstage hrank
    cases flight with
    | answered envelope =>
        simp only [advance, hstage, htoken]
        exact reached_setStage _ (by simp [Stage.rank])
    | computing | computed | ready | publishing => simp [Stage.rank] at hrank

theorem Reached.not_mem_send (h : run.Reached token 6) (engine : Engine) :
    token ∉ (run.step engine (.send token)).tasks.map Task.token := by
  cases htask : run.task? token with
  | none =>
      simp only [Run.step, htask]
      rw [task?, List.find?_eq_none] at htask
      simpa using htask
  | some task =>
      have htoken : task.token = token := by simpa using List.find?_some htask
      have hrank := h task htask
      simp only [Run.step, htask, advance]
      cases hstage : task.stage with
      | waiting => simp [hstage, Stage.rank] at hrank
      | flying flight =>
          rw [hstage] at hrank
          exact absurd hrank (Nat.not_le.mpr (rank_flying flight))
      | released envelope => simp [htoken]

theorem not_mem_steps_wholeOf (engine : Engine) (run : Run) (task : Task) :
    task.token ∉ (run.steps engine (wholeOf task)).tasks.map Task.token := by
  have hanswered := ((((reached_start engine run task.token).compute engine).settle engine).recheck
    engine).publish engine
  exact (hanswered.release engine).not_mem_send engine

end

theorem unread_advanced (h : run.Advanced next) : next.unread = run.unread := by
  cases h <;> rfl

theorem tokens_advanced (h : run.Advanced next) :
    (next.tasks.map Task.token).Sublist (run.tasks.map Task.token) := by
  cases h with
  | idle => exact .refl _
  | fly | release =>
      rw [tokens_setStage]
  | send => exact List.filter_sublist.map _

theorem steps_append (engine : Engine) (run : Run) (moves more : List Move) :
    run.steps engine (moves ++ more) = (run.steps engine moves).steps engine more :=
  List.foldl_append

/-- Moves of requests read nothing and take no request in. -/
theorem steps_of_not_read (engine : Engine) {moves : List Move} (hmoves : .read ∉ moves) (run : Run) :
    (run.steps engine moves).unread = run.unread ∧
      ((run.steps engine moves).tasks.map Task.token).Sublist (run.tasks.map Task.token) := by
  induction moves generalizing run with
  | nil => exact ⟨rfl, .refl _⟩
  | cons move rest ih =>
      rw [List.mem_cons, not_or] at hmoves
      have hfirst := advanced_step engine run (Ne.symm hmoves.1)
      obtain ⟨hunread, htokens⟩ := ih hmoves.2 (run.step engine move)
      exact ⟨hunread.trans (unread_advanced hfirst), htokens.trans (tokens_advanced hfirst)⟩

theorem read_not_mem_wholeOf (tasks : List Task) : .read ∉ tasks.flatMap wholeOf := by
  simp [wholeOf]

theorem not_mem_steps_flatMap (engine : Engine) {tasks : List Task} {task : Task} (hmem : task ∈ tasks)
    (run : Run) :
    task.token ∉ (run.steps engine (tasks.flatMap wholeOf)).tasks.map Task.token := by
  induction tasks generalizing run with
  | nil => cases hmem
  | cons first rest ih =>
      rw [List.flatMap_cons, steps_append]
      rcases List.mem_cons.mp hmem with rfl | hrest
      · intro hleft
        have hshrunk := (steps_of_not_read engine (read_not_mem_wholeOf rest)
          (run.steps engine (wholeOf task))).2
        exact not_mem_steps_wholeOf engine run task (hshrunk.subset hleft)
      · exact ih hrest _

theorem unread_accept (run : Run) (line : Line) : (run.accept line).unread = run.unread := by
  cases line <;> rfl

theorem unread_steps_read (engine : Engine) (run : Run) :
    (run.steps engine (run.unread.map fun _ => .read)).unread = [] := by
  obtain ⟨server, unread, tasks, sent⟩ := run
  induction unread generalizing server tasks sent with
  | nil => rfl
  | cons line rest ih =>
      generalize hnext : ({ server, unread := rest, tasks, sent } : Run).accept (Line.ofText line) = next
      have hunread : next.unread = rest := hnext ▸ unread_accept _ _
      obtain ⟨server', unread', tasks', sent'⟩ := next
      subst hunread
      have hstep : ({ server, unread := line :: unread', tasks, sent } : Run).step engine .read =
          { server := server', unread := unread', tasks := tasks', sent := sent' } := hnext
      rw [List.map_cons, steps, List.foldl_cons, hstep]
      exact ih server' tasks' sent'

/-- From wherever a run has come to, reading what is left and taking every request through its moves
ends it. -/
theorem drained_drain (engine : Engine) (run : Run) : (run.drain engine).Drained := by
  rw [drain]
  have hread := unread_steps_read engine run
  generalize run.steps engine (run.unread.map fun _ => .read) = begun at hread ⊢
  obtain ⟨hunread, htokens⟩ := steps_of_not_read engine (read_not_mem_wholeOf begun.tasks) begun
  refine ⟨hunread.trans hread, ?_⟩
  apply List.eq_nil_iff_forall_not_mem.mpr
  intro task hmem
  -- What is left would be a request that was there before, and each of those has been responded to.
  obtain ⟨old, hold, hsame⟩ := List.mem_map.mp (htokens.subset (List.mem_map_of_mem hmem))
  apply not_mem_steps_flatMap engine hold begun
  rw [hsame]
  exact List.mem_map_of_mem hmem

/-- What every run keeps, from its first line on. -/
theorem accounted_and_listed (engine : Engine) (server : Server) (lines : List String)
    (moves : List Move) :
    (({ server, unread := lines } : Run).steps engine moves).Accounted lines ∧
      (({ server, unread := lines } : Run).steps engine moves).Listed server := by
  apply steps_induction fun run => run.Accounted lines ∧ run.Listed server
  · intro run line rest h hunread
    exact ⟨h.1.accept hunread, h.2.accept⟩
  · intro run next h hnext
    exact ⟨h.1.advanced hnext, h.2.advanced h.1.distinct hnext⟩
  · refine ⟨⟨.refl _, List.nodup_nil, ?_⟩, ⟨?_, ?_, Nat.le_refl _, fun _ => rfl⟩⟩
    · intro task hmem
      cases hmem
    · intro key entry hentry
      exact .inl hentry
    · intro task hmem
      cases hmem

/-- Once no request is left, the registry holds what it held before. -/
theorem Listed.mem_of_drained {run : Run} {server : Server} (h : run.Listed server)
    (hdrained : run.Drained) (key : String) :
    ∀ entry ∈ run.server.registry.under key, entry ∈ server.registry.under key := by
  intro entry hentry
  rcases h.entries key entry hentry with hold | ⟨task, hmem, -⟩
  · exact hold
  · rw [hdrained.2] at hmem
    cases hmem

theorem Listed.under_eq_of_drained {run : Run} {server : Server} (h : run.Listed server)
    (hdrained : run.Drained) {key : String}
    (hbelow : ∀ entry ∈ server.registry.under key, entry.ticket < server.registry.nextTicket) :
    run.server.registry.under key = server.registry.under key := by
  have hlow : ∀ entries : List Ticketed, (∀ entry ∈ entries, entry ∈ server.registry.under key) →
      entries.filter (fun entry => entry.ticket < server.registry.nextTicket) = entries := by
    intro entries hall
    apply List.filter_eq_self.mpr
    intro entry hmem
    simpa using hbelow entry (hall entry hmem)
  have hkept := h.kept key
  rwa [hlow _ (h.mem_of_drained hdrained key), hlow _ fun _ hmem => hmem] at hkept

end Run

/-- However the lines of a text are read and its requests are run beside each other, once every line is
read and no request is left the responses carry the ids that the lines ask for, each as often as it is
asked for, and the registry holds nothing that it did not hold before. What it held under tickets that
were already drawn it still holds. From every point of the run there is a way to such an end. -/
theorem run_answers_each_line_once (engine : Engine) (server : Server) (text : String)
    (moves : List Move) :
    let run := ({ server, unread := Line.split text } : Run).steps engine moves
    (run.Drained →
      (run.sent.map Response.id).Perm (asked (Line.split text)) ∧
      (∀ key, ∀ entry ∈ run.server.registry.under key, entry ∈ server.registry.under key) ∧
      ∀ key, (∀ entry ∈ server.registry.under key, entry.ticket < server.registry.nextTicket) →
        run.server.registry.under key = server.registry.under key) ∧
    (run.drain engine).Drained := by
  intro run
  obtain ⟨haccounted, hlisted⟩ := Run.accounted_and_listed engine server (Line.split text) moves
  refine ⟨?_, Run.drained_drain engine run⟩
  intro hdrained
  refine ⟨?_, fun key => hlisted.mem_of_drained hdrained key,
    fun key hbelow => hlisted.under_eq_of_drained hdrained hbelow⟩
  have hids := haccounted.ids
  rw [hdrained.1, hdrained.2] at hids
  simpa [asked] using hids

/-- A blank line, one that is no JSON text, a cancellation, a request without an id and two with one id. -/
def sixLines : String :=
  "\n?\n[null,\"$/cancel\",\x7b\"id\":\"r\"\x7d]\n[null,\"a\"]\n[\"r\",\"a\"]\n[\"r\",\"a\"]"

theorem answers_sixLines : (Line.split sixLines).map (fun line => (Line.ofText line).answers.map Json.text) =
    [[], ["null"], [], ["null"], ["\"r\""], ["\"r\""]] := by decide +kernel

/-- A server that has loaded nothing. -/
def bareServer : Server := { store := (soloWorld "x" none [] []).store }

/-- Four of the lines are answered, two of them under the id that they share and two under none, and then
nothing is registered. -/
theorem six_lines_answered : ∃ moves : List Move, ∃ run : Run,
    run = ({ server := bareServer, unread := Line.split sixLines } : Run).steps soloEngine moves ∧ run.Drained ∧
      (run.sent.map fun response => response.id.text).Perm ["null", "null", "\"r\"", "\"r\""] ∧
      ∀ key, run.server.registry.under key = [] := by
  -- All lines are read first, and then each request is taken to its end.
  let start : Run := { server := bareServer, unread := Line.split sixLines }
  obtain ⟨moves, hmoves⟩ : ∃ moves, start.drain soloEngine = start.steps soloEngine moves :=
    ⟨_, (List.foldl_append ..).symm⟩
  have hdrained : (start.steps soloEngine moves).Drained := hmoves ▸ start.drained_drain soloEngine
  obtain ⟨hids, hregistry, -⟩ := (run_answers_each_line_once soloEngine bareServer sixLines moves).1 hdrained
  refine ⟨moves, _, rfl, hdrained, ?_, fun key => ?_⟩
  · have htexts := hids.map Json.text
    have hasked : (asked (Line.split sixLines)).map Json.text =
        ["null", "null", "\"r\"", "\"r\""] := by
      rw [asked, List.map_flatMap, List.flatMap_def, answers_sixLines]
      rfl
    rw [hasked, List.map_map] at htexts
    exact htexts
  · exact List.eq_nil_iff_forall_not_mem.mpr fun entry hmem => by cases hregistry key entry hmem

end CodeIntel
