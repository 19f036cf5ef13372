import CodeIntel.Proofs.Workspace.GroupedEdits
import CodeIntel.Proofs.Workspace.Staleness

/-! When the commit of a sync succeeds. Anything may have been published since the sync was prepared. A
sync that found changes is committed onto its base or not at all, and its report has the version that is
published then. A sync that found none is not compared with its base: it succeeds whatever has happened
to the workspace, and its report has the version of the base. -/

namespace CodeIntel

open World

/-- What is known of a sync that was prepared, however long ago. -/
structure PendingSync.Prepared (pending : PendingSync) : Prop where
  unchanged_iff : pending.successor = none ↔ pending.report.totalSynced = 0
  version_eq : pending.report.version = pending.base.version
  successor_version : ∀ successor, pending.successor = some successor →
    successor.version = pending.base.version + 1

section

variable {engine : Engine} {store : Store} {world next : World} {event : Event} {pending : PendingSync}

theorem Store.prepared_of_prepareSync {paths : Option (List String)}
    (h : store.prepareSync engine paths = .done pending) : pending.Prepared := by
  obtain ⟨base, solution, members, -, hpending⟩ := prepareSync_eq_done.mp h
  have hversion := version_scan store.disk base members paths
  dsimp only at hpending
  rcases hpending with ⟨hzero, rfl⟩ | ⟨hsome, projects, -, rfl⟩
  · exact ⟨iff_of_true rfl hzero, hversion, fun _ hnone => by cases hnone⟩
  · refine ⟨iff_of_false (Option.some_ne_none _) hsome, hversion, fun successor hsuccessor => ?_⟩
    obtain rfl := Option.some.inj hsuccessor
    rfl

/-- Once something is published something always is. -/
theorem World.Step.exists_published (hstep : Step engine world event next) {snapshot : Snapshot}
    (h : world.store.published = some snapshot) : ∃ current, next.store.published = some current := by
  cases hstep with
  | disturb | tick | prepareLoad | failLoad | prepareSync | failSync => exact ⟨snapshot, h⟩
  | commitLoad => exact ⟨_, rfl⟩
  | commitUnchanged _ hnone =>
      rw [Store.commitSync, hnone]
      exact ⟨snapshot, h⟩
  | commitSync _ hsuccessor =>
      rcases world.store.commitSync_cases hsuccessor with ⟨_, -, -, -, hcommit⟩ | ⟨_, -, hcommit⟩
      · rw [hcommit]
        exact ⟨_, rfl⟩
      · rw [hcommit]
        exact ⟨snapshot, h⟩
  | applyEdits id version edits =>
      have hends := world.store.applyEdits_ends id version edits
      generalize world.store.applyEdits id version edits = result at hends
      cases hends with
      | empty | stale | misfit | unwritten => exact ⟨snapshot, h⟩
      | published => exact ⟨_, rfl⟩

/-- The syncs that clients hold were prepared, and where one was, something is published. -/
def World.SyncsPrepared (world : World) : Prop :=
  ∀ pending ∈ world.syncs,
    pending.Prepared ∧ ∃ current, world.store.published = some current

theorem World.SyncsPrepared.step (h : world.SyncsPrepared) (hstep : Step engine world event next) :
    next.SyncsPrepared := by
  intro pending hmem
  rcases hstep.mem_syncs hmem with hheld | ⟨-, -, paths, hprepare⟩
  · obtain ⟨hprepared, current, hcurrent⟩ := h pending hheld
    exact ⟨hprepared, hstep.exists_published hcurrent⟩
  · have hbase := (Store.syncOf_of_prepareSync hprepare).1
    exact ⟨Store.prepared_of_prepareSync hprepare, hstep.exists_published hbase⟩

theorem World.Reachable.syncsPrepared (h : Reachable engine world) : world.SyncsPrepared :=
  h.invariant (fun _ _ _ hprepared hstep => hprepared.step hstep) (fun _ _ hprepared => hprepared)
    fun _ _ _ hmem => by cases hmem

/-- The ways in which a commit of a prepared sync can end, by what is published when it comes. -/
inductive CommitEnd (store : Store) (current : Snapshot) (pending : PendingSync) :
    Except Error SyncReport × Store → Prop where
  | unchanged : pending.report.totalSynced = 0 →
      CommitEnd store current pending (.ok pending.report, store)
  | published {successor : Snapshot} : pending.report.totalSynced ≠ 0 →
      current.key = pending.base.key → pending.successor = some successor →
      CommitEnd store current pending
        (.ok { pending.report with version := successor.version }, store.publish successor)
  | reloaded : pending.report.totalSynced ≠ 0 → current.id ≠ pending.base.id →
      CommitEnd store current pending (.error .reloaded, store)
  | overtaken : pending.report.totalSynced ≠ 0 → current.id = pending.base.id →
      current.version ≠ pending.base.version →
      CommitEnd store current pending
        (.error (.conflict pending.base.version current.version), store)

theorem Store.commitSync_ends {current : Snapshot} (hprepared : pending.Prepared)
    (hpublished : store.published = some current) :
    CommitEnd store current pending (store.commitSync pending) := by
  cases hsuccessor : pending.successor with
  | none =>
      rw [commitSync, hsuccessor]
      exact .unchanged (hprepared.unchanged_iff.mp hsuccessor)
  | some successor =>
      have hsome : pending.report.totalSynced ≠ 0 := fun hzero => by
        rw [hprepared.unchanged_iff.mpr hzero] at hsuccessor
        cases hsuccessor
      rcases store.commitSync_cases hsuccessor with
        ⟨old, hold, hid, hversion, hcommit⟩ | ⟨error, herror, hcommit⟩
      · obtain rfl := Option.some.inj (hpublished.symm.trans hold)
        rw [hcommit]
        exact .published hsome (Prod.ext hid hversion) hsuccessor
      · rw [hcommit]
        rcases ensureCurrent_eq_error hpublished herror with ⟨hid, rfl⟩ | ⟨hid, hversion, rfl⟩
        · exact .reloaded hsome hid
        · exact .overtaken hsome hid hversion

/-- In every world that can come about the commit of a prepared sync succeeds exactly when its base is
still published or it found no change. It fails as reloaded or as overtaken, by the part of the base's
key that is another now, and leaves everything as it was. Where it succeeds on its base the report has
the version that is published then; where it succeeds without, nothing is published and the report has
the version of the base. -/
theorem commit_checks_base_of_changes (hreachable : Reachable engine world)
    (hpending : pending ∈ world.syncs) :
    ∃ current, world.store.published = some current ∧
      ((∃ report, (world.store.commitSync pending).1 = .ok report) ↔
        current.key = pending.base.key ∨ pending.report.totalSynced = 0) ∧
      (∀ error, (world.store.commitSync pending).1 = .error error →
        (world.store.commitSync pending).2 = world.store ∧
          ((current.id ≠ pending.base.id ∧ error = .reloaded) ∨
            (current.id = pending.base.id ∧ current.version ≠ pending.base.version ∧
              error = .conflict pending.base.version current.version))) ∧
      (∀ report, (world.store.commitSync pending).1 = .ok report →
        (current.key = pending.base.key →
          ∃ next, (world.store.commitSync pending).2.published = some next ∧
            report.version = next.version) ∧
        (current.key ≠ pending.base.key →
          (world.store.commitSync pending).2 = world.store ∧
            report.version = pending.base.version)) := by
  obtain ⟨hprepared, current, hcurrent⟩ := hreachable.syncsPrepared pending hpending
  have hends := Store.commitSync_ends hprepared hcurrent
  refine ⟨current, hcurrent, ?_⟩
  generalize world.store.commitSync pending = result at hends
  cases hends with
  | unchanged hzero =>
      refine ⟨iff_of_true ⟨_, rfl⟩ (.inr hzero), fun _ h => by (cases h), fun report h => ?_⟩
      obtain rfl := Except.ok.inj h
      refine ⟨fun hkey => ⟨current, hcurrent, ?_⟩, fun _ => ⟨rfl, hprepared.version_eq⟩⟩
      rw [hprepared.version_eq]
      exact (Prod.mk.inj hkey).2.symm
  | published hsome hkey hsuccessor =>
      refine ⟨iff_of_true ⟨_, rfl⟩ (.inl hkey), fun _ h => by (cases h), fun report h => ?_⟩
      obtain rfl := Except.ok.inj h
      exact ⟨fun _ => ⟨_, rfl, rfl⟩, fun hother => absurd hkey hother⟩
  | reloaded hsome hid =>
      refine ⟨iff_of_false (by rintro ⟨_, h⟩; cases h) ?_, fun error h => ?_, fun _ h => by (cases h)⟩
      · exact not_or.mpr ⟨fun hkey => hid (Prod.mk.inj hkey).1, hsome⟩
      · exact ⟨rfl, .inl ⟨hid, (Except.error.inj h).symm⟩⟩
  | overtaken hsome hid hversion =>
      refine ⟨iff_of_false (by rintro ⟨_, h⟩; cases h) ?_, fun error h => ?_, fun _ h => by (cases h)⟩
      · exact not_or.mpr ⟨fun hkey => hversion (Prod.mk.inj hkey).2, hsome⟩
      · exact ⟨rfl, .inr ⟨hid, hversion, (Except.error.inj h).symm⟩⟩

end

/-! ### A sync that found nothing and was overtaken -/

/-- What a sync of the small workspace finds while its file has the text of the snapshot. -/
def soloQuiet : PendingSync := ⟨soloSnapshot 0 0 "x", none, ⟨0, 0, 0, 0, 0⟩⟩

/-- The small workspace while a client holds that sync. -/
def quietWorld (version : Nat) (text : String) : World :=
  { soloWorld text (some (soloSnapshot 0 version text)) [] [0] with syncs := [soloQuiet] }

theorem prepareSync_soloQuiet :
    (soloWorld "x" (some (soloSnapshot 0 0 "x")) [] [0]).store.prepareSync soloEngine none =
      .done soloQuiet := by
  have hfindings : ∀ path, Store.Scanned (soloDisk "x") (soloSnapshot 0 0 "x") ["a"] none path →
      Store.finding (soloDisk "x") (soloSnapshot 0 0 "x") ["a"] path = .ok .none :=
    fun path hscanned => Store.finding_of_inStep (inStep_solo "x") hscanned
  have hscan : Store.scan (soloDisk "x") (soloSnapshot 0 0 "x") ["a"] none =
      ((soloSnapshot 0 0 "x").documents, ⟨0, 0, 0, 0, 0⟩) :=
    Store.afterChanges_of_none (fun path hmem =>
      Store.found_of_finding (hfindings path (Store.mem_syncScope.mp hmem))) _
  refine Store.prepareSync_eq_done.mpr ⟨soloSnapshot 0 0 "x", _, ["a"],
    ⟨rfl, rfl, memberPaths_solo _, fun path hscanned => ⟨_, hfindings path hscanned⟩⟩, ?_⟩
  have hdisk : (soloWorld "x" (some (soloSnapshot 0 0 "x")) [] [0]).store.disk = soloDisk "x" := rfl
  rw [hdisk, hscan]
  exact .inl ⟨rfl, rfl⟩

/-- The sync was prepared, and then the file was edited. -/
theorem reachable_quietWorld : Reachable soloEngine (quietWorld 1 "yx") := by
  have hprepared : Reachable soloEngine (quietWorld 0 "x") :=
    (reachable_solo "x").move (.step [0] [0] (.prepareSync prepareSync_soloQuiet))
  have hstep : Step soloEngine (quietWorld 0 "x") _ _ := .applyEdits _ 0 0 (soloEdits 0)
  rw [show (quietWorld 0 "x").store.applyEdits 0 0 (soloEdits 0) = _ from
    applyEdits_solo_insert "x"] at hstep
  exact hprepared.move (.step [0] [0] hstep)

/-- The sync is committed although its base was overtaken, and its report has the version of the base. -/
theorem quiet_commit_succeeds :
    (∃ report, ((quietWorld 1 "yx").store.commitSync soloQuiet).1 = .ok report ∧ report.version = 0) ∧
      (quietWorld 1 "yx").store.published = some (soloSnapshot 0 1 "yx") := by
  obtain ⟨current, hcurrent, hok, -, hreport⟩ :=
    commit_checks_base_of_changes reachable_quietWorld List.mem_cons_self
  obtain rfl := Option.some.inj hcurrent
  obtain ⟨report, hreported⟩ := hok.mpr (.inr rfl)
  have hkey : (soloSnapshot 0 1 "yx").key ≠ soloQuiet.base.key := by decide
  exact ⟨⟨report, hreported, ((hreport report hreported).2 hkey).2⟩, rfl⟩

/-- A commit does not succeed only on its base, and the version that it reports need not be published. -/
theorem commit_succeeds_on_overtaken_base :
    ¬ ∀ world pending current, Reachable soloEngine world → pending ∈ world.syncs →
      world.store.published = some current →
      ((∃ report, (world.store.commitSync pending).1 = .ok report) ↔
        current.key = pending.base.key) := by
  intro hall
  have hkey := (hall (quietWorld 1 "yx") soloQuiet _ reachable_quietWorld List.mem_cons_self rfl).mp
    ⟨_, rfl⟩
  exact absurd hkey (by decide)

end CodeIntel
