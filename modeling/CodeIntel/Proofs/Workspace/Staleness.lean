import CodeIntel.Proofs.Workspace.Representation

/-! What the version of a document tells. A mutation stamps the documents that it makes with its own
version and takes the rest over from the snapshot that it replaces. So of two snapshots of one load the
later one has, at or below the version of the earlier one, only documents of the earlier one; every
other document was made by a mutation in between. A sync that was worked out long before it is
committed does no harm: it is committed only onto the snapshot that it was worked out on. -/

namespace CodeIntel

open World

/-- The next version of a snapshot: its documents are those of the snapshot or as of the new version. -/
structure Snapshot.Follows (next base : Snapshot) : Prop where
  id_eq : next.id = base.id
  version_eq : next.version = base.version + 1
  kept_or_new : ∀ key document, next.document? key = some document →
    base.document? key = some document ∨ document.version = next.version

namespace Snapshot

variable {snapshot : Snapshot} {key : String} {document : Document}

theorem WellFormed.document?_of_mem (h : snapshot.WellFormed)
    (hmem : (key, document) ∈ snapshot.documents) : snapshot.document? key = some document :=
  h.filed.ascending.get?_of_mem hmem

theorem WellFormed.version_le (h : snapshot.WellFormed) (hdocument : snapshot.document? key = some document) :
    document.version ≤ snapshot.version :=
  h.versions _ (Keyed.mem_of_get? hdocument)

end Snapshot

namespace Store

variable {engine : Engine} {store : Store} {base successor : Snapshot}

theorem SyncOf.follows (h : SyncOf engine store base successor) (hbase : base.WellFormed) :
    successor.Follows base := by
  refine ⟨h.id_eq, h.version_eq, ?_⟩
  intro key document hdocument
  rcases h.mem_or_version_eq _ (Keyed.mem_of_get? hdocument) with hkept | hnew
  · exact .inl (hbase.document?_of_mem hkept)
  · exact .inr hnew

theorem follows_successorOf (store : Store) {groups : Keyed (List TextEdit)}
    {changed : List (Document × Document)} (hbase : base.WellFormed) (hgroups : groups.Ascending)
    (hchanged : edited base groups = .ok changed) : (successorOf store base changed).Follows base := by
  have hrewrites := rewrites_of_edited hbase.filed hgroups hchanged
  refine ⟨rfl, rfl, ?_⟩
  intro key document hdocument
  have hmem : (key, document) ∈ replaced base.documents changed := Keyed.mem_of_get? hdocument
  rw [mem_replaced hbase.filed.ascending hrewrites.distinct] at hmem
  rcases hmem with ⟨pair, hpair, rfl, -⟩ | ⟨-, hkept⟩
  · obtain ⟨entry, -, -, happly⟩ := exists_of_mem_edited hchanged hpair
    exact .inr (Document.applyEdits_path happly).2
  · exact .inl (hbase.document?_of_mem hkept)

end Store

/-! ### One step -/

section

variable {engine : Engine} {world next : World} {event : Event}

/-- What prepared syncs would publish follows what they were worked out on. -/
def World.SyncsFollow (world : World) : Prop :=
  ∀ pending ∈ world.syncs, ∀ successor, pending.successor = some successor →
    successor.Follows pending.base

/-- A sync that a client holds was held before or is the one that the step has prepared. -/
theorem World.Step.mem_syncs (hstep : Step engine world event next) {pending : PendingSync}
    (hmem : pending ∈ next.syncs) :
    pending ∈ world.syncs ∨ event = .idle ∧ next = { world with syncs := pending :: world.syncs } ∧
      ∃ paths, world.store.prepareSync engine paths = .done pending := by
  cases hstep with
  | disturb | tick | prepareLoad | failLoad | commitLoad | failSync | applyEdits => exact .inl hmem
  | commitUnchanged | commitSync => exact .inl (List.mem_of_mem_erase hmem)
  | prepareSync hprepare =>
      rcases List.mem_cons.mp hmem with rfl | hmem
      · exact .inr ⟨rfl, rfl, _, hprepare⟩
      · exact .inl hmem

theorem World.SyncsFollow.step (h : world.SyncsFollow) (hall : world.AllWellFormed)
    (hstep : Step engine world event next) : next.SyncsFollow := by
  intro pending hmem successor hsuccessor
  rcases hstep.mem_syncs hmem with hmem | ⟨-, -, paths, hprepare⟩
  · exact h pending hmem successor hsuccessor
  · obtain ⟨hbase, hsync⟩ := Store.syncOf_of_prepareSync hprepare
    exact (hsync successor hsuccessor).follows (hall _ (.inl hbase))

/-- A mutation that is published follows the snapshot that it replaces. -/
theorem InOrder.follows {events : List Event} {snapshot : Snapshot} (h : InOrder events world)
    (hall : world.AllWellFormed) (hsyncs : world.SyncsFollow) (hstep : Step engine world event next)
    (hbase : event.base?.isSome) (hsnapshot : event.publication? = some snapshot) :
    ∃ old, world.store.published = some old ∧ snapshot.Follows old := by
  cases hstep with
  | disturb | tick | prepareLoad | failLoad | commitLoad | prepareSync | failSync
  | commitUnchanged => cases hbase
  | @commitSync pending successor hmem hsuccessor =>
      rcases world.store.commitSync_cases hsuccessor with
        ⟨old, hold, hid, hversion, hcommit⟩ | ⟨error, -, hcommit⟩
      · rw [hcommit] at hsnapshot
        obtain rfl := Option.some.inj hsnapshot
        -- No two publications share a key, so that what is published is the base itself.
        have hsame : old = pending.base :=
          h.eq_of_key_eq (h.mem_of_published hold) (h.based pending hmem).1 (Prod.ext hid hversion)
        exact ⟨old, hold, hsame ▸ hsyncs pending hmem _ hsuccessor⟩
      · rw [hcommit] at hsnapshot
        cases hsnapshot
  | applyEdits id version edits =>
      have hends := world.store.applyEdits_ends id version edits
      generalize world.store.applyEdits id version edits = result at hends hsnapshot
      cases hends with
      | empty | stale | misfit | unwritten => cases hsnapshot
      | published _ hcurrent hgroups hchanged _ =>
          obtain rfl := Option.some.inj hsnapshot
          obtain ⟨hold, -, -⟩ := Store.ensureCurrent_eq_ok.mp hcurrent
          exact ⟨_, hold, Store.follows_successorOf _ (hall _ (.inl hold))
            (Store.grouped_ascending hgroups) hchanged⟩

end

/-! ### A whole run -/

section

variable {engine : Engine} {disk : Disk} {now : String} {events : List Event} {world : World}

theorem World.Runs.allWellFormed (hrun : Runs (Step engine) (World.initial disk now) events world) :
    world.AllWellFormed := by
  induction hrun with
  | nil => exact .initial disk now
  | snoc _ hstep ih => exact ih.step hstep

theorem World.Runs.syncsFollow (hrun : Runs (Step engine) (World.initial disk now) events world) :
    world.SyncsFollow := by
  induction hrun with
  | nil =>
      intro pending hmem
      cases hmem
  | snoc hbefore hstep ih => exact ih.step hbefore.allWellFormed hstep

/-- What is published last in a run is well-formed. -/
theorem World.Runs.wellFormed_last (hrun : Runs (Step engine) (World.initial disk now) events world)
    {snapshot : Snapshot} (hlast : (publications events).getLast? = some snapshot) :
    snapshot.WellFormed :=
  hrun.allWellFormed snapshot (.inl ((InOrder.of_runs hrun).latest.trans hlast))

/-- What a publication is: a load under a number of its own, or the next version of the publication
right before it. -/
theorem World.Runs.publication_cases {before after : List Event} {event : Event} {snapshot : Snapshot}
    (hrun : Runs (Step engine) (World.initial disk now) (before ++ event :: after) world)
    (hsnapshot : event.publication? = some snapshot) :
    (∀ earlier ∈ publications before, earlier.id ≠ snapshot.id) ∨
      (event.base?.isSome ∧ ∃ old, (publications before).getLast? = some old ∧ snapshot.Follows old) := by
  cases event with
  | disturbed | idle | prepared => cases hsnapshot
  | loaded loaded =>
      obtain rfl := Option.some.inj hsnapshot
      exact .inl hrun.loaded_is_new.2
  | synced | edited =>
      obtain ⟨middle, next, hbefore, hstep⟩ := hrun.step_at
      have horder := InOrder.of_runs hbefore
      obtain ⟨old, hold, hfollows⟩ :=
        horder.follows hbefore.allWellFormed hbefore.syncsFollow hstep rfl hsnapshot
      exact .inr ⟨rfl, old, horder.latest.symm.trans hold, hfollows⟩

end

/-- Among some events, the first of which comes right after others, there is a mutation that made a
document: it published the document as of its own version, in place of a snapshot without it. -/
def MadeAmong (before events : List Event) (id : Nat) (key : String) (document : Document) : Prop :=
  ∃ front event rest snapshot old, events = front ++ event :: rest ∧ event.base?.isSome ∧
    event.publication? = some snapshot ∧ snapshot.id = id ∧ snapshot.version = document.version ∧
    snapshot.document? key = some document ∧
    (publications (before ++ front)).getLast? = some old ∧ old.document? key ≠ some document

theorem MadeAmong.snoc {before events : List Event} {id : Nat} {key : String} {document : Document}
    (h : MadeAmong before events id key document) (event : Event) :
    MadeAmong before (events ++ [event]) id key document := by
  obtain ⟨front, made, rest, snapshot, old, rfl, hmade⟩ := h
  refine ⟨front, made, rest ++ [event], snapshot, old, ?_, hmade⟩
  simp

/-- A later snapshot of the same load: what it has at or below the version of the earlier one, the
earlier one has too, and the rest was made in between. -/
structure Outlives (before between : List Event) (earlier later : Snapshot) : Prop where
  version_le : earlier.version ≤ later.version
  old : ∀ key document, later.document? key = some document → document.version ≤ earlier.version →
    earlier.document? key = some document
  new : ∀ key document, later.document? key = some document → earlier.version < document.version →
    MadeAmong before between earlier.id key document

namespace Outlives

variable {before between : List Event} {earlier later next : Snapshot}

theorem refl (hearlier : earlier.WellFormed) (before between : List Event) :
    Outlives before between earlier earlier where
  version_le := Nat.le_refl _
  old _ _ hdocument _ := hdocument
  new _ _ hdocument hnew := by
    have hle := hearlier.version_le hdocument
    omega

theorem quiet (h : Outlives before between earlier later) (event : Event) :
    Outlives before (between ++ [event]) earlier later :=
  ⟨h.version_le, h.old, fun key document hdocument hnew => (h.new key document hdocument hnew).snoc event⟩

theorem mutate (h : Outlives before between earlier later) (hlater : later.WellFormed)
    (hid : next.id = earlier.id) (hfollows : next.Follows later) {event : Event}
    (hbase : event.base?.isSome) (hevent : event.publication? = some next)
    (hlast : (publications (before ++ between)).getLast? = some later) :
    Outlives before (between ++ [event]) earlier next := by
  have hversion := hfollows.version_eq
  have hle := h.version_le
  refine ⟨by omega, ?_, ?_⟩
  · intro key document hdocument hold
    rcases hfollows.kept_or_new key document hdocument with hkept | hnew
    · exact h.old key document hkept hold
    · omega
  · intro key document hdocument hnewer
    rcases hfollows.kept_or_new key document hdocument with hkept | hnew
    · exact (h.new key document hkept hnewer).snoc event
    · refine ⟨between, event, [], next, later, rfl, hbase, hevent, hid, hnew.symm, hdocument, hlast, ?_⟩
      intro hkept
      have := hlater.version_le hkept
      omega

end Outlives

/-- The last publication of a run outlives every earlier one of the same load. -/
theorem World.Runs.outlives {engine : Engine} {disk : Disk} {now : String} {final : World}
    {first : List Event} {event : Event} {between : List Event} {earlier later : Snapshot}
    (hrun : Runs (Step engine) (World.initial disk now) (first ++ [event] ++ between) final)
    (hearlier : event.publication? = some earlier)
    (hlater : (publications (first ++ [event] ++ between)).getLast? = some later)
    (hid : later.id = earlier.id) : Outlives (first ++ [event]) between earlier later := by
  induction between using List.reverseRecOn generalizing final later with
  | nil =>
      have hlast := hlater
      rw [List.append_nil, publications_snoc_of_some _ hearlier, List.getLast?_concat] at hlater
      obtain rfl := Option.some.inj hlater
      exact .refl (hrun.wellFormed_last hlast) _ _
  | append_singleton between last ih =>
      rw [← List.append_assoc] at hrun hlater
      obtain ⟨middle, hbefore⟩ := hrun.split
      cases hpublication : last.publication? with
      | none =>
          rw [publications_snoc_of_none _ hpublication] at hlater
          exact (ih hbefore hlater hid).quiet last
      | some next =>
          rw [publications_snoc_of_some _ hpublication, List.getLast?_concat] at hlater
          obtain rfl := Option.some.inj hlater
          rcases hrun.publication_cases hpublication with hnone | ⟨hbase, old, hold, hfollows⟩
          · -- A load would have a number that the earlier publication does not have.
            have hmem : earlier ∈ publications (first ++ [event] ++ between) := by
              apply publications_subset_append
              rw [publications_snoc_of_some _ hearlier]
              exact List.mem_concat_self
            exact absurd hid.symm (hnone earlier hmem)
          · have hprevious := ih hbefore hold (hfollows.id_eq.symm.trans hid)
            exact hprevious.mutate (hbefore.wellFormed_last hold) hid hfollows hbase hpublication hold

/-- Of two snapshots of one load, published one after the other, let the later one have a document. If
the version of the document is at most that of the earlier snapshot, that snapshot has the same document,
with the same version and text. Otherwise the document was made by a mutation published after the
earlier snapshot and no later than the other. -/
theorem document_version_tells_age {engine : Engine} {disk : Disk} {now : String}
    {first between rest : List Event} {publishing republishing : Event} {final : World}
    {earlier later : Snapshot}
    (hrun : Runs (Step engine) (World.initial disk now)
      (first ++ publishing :: between ++ republishing :: rest) final)
    (hearlier : publishing.publication? = some earlier)
    (hlater : republishing.publication? = some later) (hid : earlier.id = later.id)
    {key : String} {document : Document} (hdocument : later.document? key = some document) :
    (document.version ≤ earlier.version → earlier.document? key = some document) ∧
      (earlier.version < document.version →
        MadeAmong (first ++ [publishing]) (between ++ [republishing]) earlier.id key document) := by
  have hevents : first ++ publishing :: between ++ republishing :: rest =
      (first ++ [publishing] ++ (between ++ [republishing])) ++ rest := by simp
  rw [hevents] at hrun
  obtain ⟨middle, hbefore⟩ := hrun.split
  have hlast : (publications (first ++ [publishing] ++ (between ++ [republishing]))).getLast? =
      some later := by
    rw [← List.append_assoc, publications_snoc_of_some _ hlater, List.getLast?_concat]
  have houtlives := hbefore.outlives hearlier hlast hid.symm
  exact ⟨houtlives.old key document hdocument, houtlives.new key document hdocument⟩

/-- The document of the small workspace was made by the edit after the load. -/
theorem solo_document_made_by_edit :
    (soloSnapshot 0 1 "yx").document? "a" = some ⟨"a", "yx", 1⟩ ∧
      MadeAmong (soloEvents.take 2) ((soloEvents.drop 2).take 2) 0 "a" ⟨"a", "yx", 1⟩ := by
  have hrun : Runs (Step soloEngine) (World.initial (soloDisk "x") "")
      (soloEvents.take 1 ++ .loaded (soloSnapshot 0 0 "x") :: (soloEvents.drop 2).take 1 ++
        .edited 0 0 (soloEdits 0) (.ok (soloSnapshot 0 1 "yx")) :: soloEvents.drop 4)
      (soloWorld "yx" (some (soloSnapshot 0 1 "yx")) [] [0]) := runs_soloEvents
  have hdocument : (soloSnapshot 0 1 "yx").document? "a" = some ⟨"a", "yx", 1⟩ := rfl
  exact ⟨hdocument, (document_version_tells_age hrun rfl rfl rfl hdocument).2 (by decide)⟩

end CodeIntel
