import CodeIntel.Proofs.Disk.Names
import CodeIntel.Proofs.Workspace.Runs
import Mathlib

/-! The order of publications. In every run the published snapshots differ in their keys, a mutation
replaces the very snapshot that it was worked out on, and a base that has been built on once is
refused from then on. The invariant speaks of the whole history: every load starts at version zero, so
that a version alone says nothing about which of two snapshots came first. -/

namespace CodeIntel

open World

theorem publications_snoc_of_none (events : List Event) {event : Event}
    (h : event.publication? = none) : publications (events ++ [event]) = publications events := by
  simp [publications, List.filterMap_append, h]

theorem publications_snoc_of_some (events : List Event) {event : Event} {snapshot : Snapshot}
    (h : event.publication? = some snapshot) :
    publications (events ++ [event]) = publications events ++ [snapshot] := by
  simp [publications, List.filterMap_append, h]

theorem publications_subset_append (before after : List Event) :
    publications before ⊆ publications (before ++ after) := by
  intro snapshot hmem
  simp only [publications, List.filterMap_append, List.mem_append]
  exact .inl hmem

/-- What a history looks like: the world shows its last publication, keys do not repeat, the load that
is published shows its greatest version, a prepared load has a number of its own, and a prepared sync
is based on something that was published. -/
structure InOrder (events : List Event) (world : World) : Prop where
  latest : world.store.published = (publications events).getLast?
  distinct : ((publications events).map Snapshot.key).Nodup
  drawn : ∀ snapshot ∈ publications events, snapshot.id ∈ world.drawn
  newest : ∀ snapshot ∈ publications events, ∀ current, world.store.published = some current →
    snapshot.id = current.id → snapshot.version ≤ current.version
  fresh : ∀ pending ∈ world.loads, pending.snapshot.version = 0 ∧
    pending.snapshot.id ∈ world.drawn ∧
    ∀ snapshot ∈ publications events, snapshot.id ≠ pending.snapshot.id
  apart : (world.loads.map fun pending => pending.snapshot.id).Nodup
  based : ∀ pending ∈ world.syncs, pending.base ∈ publications events ∧
    ∀ successor, pending.successor = some successor →
      successor.id = pending.base.id ∧ successor.version = pending.base.version + 1

namespace InOrder

variable {events : List Event} {world next : World} {event : Event} {snapshot : Snapshot}

theorem initial (disk : Disk) (now : String) : InOrder [] (World.initial disk now) where
  latest := rfl
  distinct := List.nodup_nil
  drawn _ hmem := by simp [publications] at hmem
  newest _ hmem := by simp [publications] at hmem
  fresh _ hmem := by simp [World.initial] at hmem
  apart := List.nodup_nil
  based _ hmem := by simp [World.initial] at hmem

/-- What is published is one of the publications. -/
theorem mem_of_published (h : InOrder events world) (hpublished : world.store.published = some snapshot) :
    snapshot ∈ publications events :=
  List.mem_of_getLast? (h.latest.symm.trans hpublished)

/-- Two publications of one key are the same. -/
theorem eq_of_key_eq (h : InOrder events world) {other : Snapshot}
    (hsnapshot : snapshot ∈ publications events) (hother : other ∈ publications events)
    (hkey : snapshot.key = other.key) : snapshot = other :=
  List.inj_on_of_nodup_map h.distinct hsnapshot hother hkey

/-- A snapshot of another key than all publications may follow them. -/
theorem distinct_snoc (h : InOrder events world)
    (hkey : snapshot.key ∉ (publications events).map Snapshot.key) :
    ((publications events ++ [snapshot]).map Snapshot.key).Nodup := by
  rw [List.map_append, List.map_singleton, List.nodup_append]
  refine ⟨h.distinct, List.nodup_singleton _, ?_⟩
  rintro key hmem _ hlast rfl
  exact hkey (List.mem_singleton.mp hlast ▸ hmem)

/-- A step that publishes nothing keeps the order as long as it takes up no more than it should. -/
theorem quiet (h : InOrder events world) (hevent : event.publication? = none)
    (hpublished : next.store.published = world.store.published) (hloads : next.loads = world.loads)
    (hdrawn : next.drawn = world.drawn) (hsyncs : next.syncs ⊆ world.syncs) :
    InOrder (events ++ [event]) next where
  latest := by rw [publications_snoc_of_none events hevent, hpublished, h.latest]
  distinct := by rw [publications_snoc_of_none events hevent]; exact h.distinct
  drawn := by rw [publications_snoc_of_none events hevent, hdrawn]; exact h.drawn
  newest := by rw [publications_snoc_of_none events hevent, hpublished]; exact h.newest
  fresh := by rw [publications_snoc_of_none events hevent, hloads, hdrawn]; exact h.fresh
  apart := by rw [hloads]; exact h.apart
  based pending hmem := by
    rw [publications_snoc_of_none events hevent]
    exact h.based pending (hsyncs hmem)

/-- The successor of the published snapshot has a key that no publication has. -/
theorem key_notMem_of_successor (h : InOrder events world) {old : Snapshot}
    (hold : world.store.published = some old) (hid : snapshot.id = old.id)
    (hversion : snapshot.version = old.version + 1) :
    snapshot.key ∉ (publications events).map Snapshot.key := by
  intro hmem
  obtain ⟨other, hother, hkey⟩ := List.mem_map.mp hmem
  obtain ⟨hotherId, hotherVersion⟩ := Prod.mk.inj hkey
  have := h.newest other hother old hold (hotherId.trans hid)
  omega

/-- Publishing the successor of the published snapshot keeps the order. -/
theorem advance (h : InOrder events world) {old : Snapshot}
    (hold : world.store.published = some old) (hid : snapshot.id = old.id)
    (hversion : snapshot.version = old.version + 1) (hevent : event.publication? = some snapshot)
    (hpublished : next.store.published = some snapshot) (hloads : next.loads = world.loads)
    (hdrawn : next.drawn = world.drawn) (hsyncs : next.syncs ⊆ world.syncs) :
    InOrder (events ++ [event]) next := by
  have hpublications := publications_snoc_of_some events hevent
  have hmem := h.mem_of_published hold
  refine ⟨?_, ?_, ?_, ?_, ?_, ?_, ?_⟩
  · rw [hpublications, hpublished, List.getLast?_concat]
  · rw [hpublications]
    exact h.distinct_snoc (h.key_notMem_of_successor hold hid hversion)
  · intro other hother
    rw [hpublications, List.mem_append, List.mem_singleton] at hother
    rw [hdrawn]
    rcases hother with hother | rfl
    · exact h.drawn other hother
    · rw [hid]
      exact h.drawn old hmem
  · intro other hother current hcurrent hsame
    rw [hpublished] at hcurrent
    obtain rfl := Option.some.inj hcurrent
    rw [hpublications, List.mem_append, List.mem_singleton] at hother
    rcases hother with hother | rfl
    · have := h.newest other hother old hold (hsame.trans hid)
      omega
    · exact Nat.le_refl _
  · intro pending hpending
    rw [hloads] at hpending
    obtain ⟨hzero, hdrawnId, hunused⟩ := h.fresh pending hpending
    refine ⟨hzero, hdrawn ▸ hdrawnId, fun other hother => ?_⟩
    rw [hpublications, List.mem_append, List.mem_singleton] at hother
    rcases hother with hother | rfl
    · exact hunused other hother
    · rw [hid]
      exact hunused old hmem
  · rw [hloads]
    exact h.apart
  · intro pending hpending
    obtain ⟨hbase, hsuccessor⟩ := h.based pending (hsyncs hpending)
    exact ⟨publications_subset_append _ _ hbase, hsuccessor⟩

/-- Committing a prepared load keeps the order: its number has not been published before. -/
theorem load (h : InOrder events world) {pending : PendingLoad} (hpending : pending ∈ world.loads) :
    InOrder (events ++ [.loaded pending.snapshot])
      { world with
        store := (world.store.commitLoad pending).2
        loads := world.loads.erase pending } := by
  have hpublications := publications_snoc_of_some events
    (show (Event.loaded pending.snapshot).publication? = some pending.snapshot from rfl)
  obtain ⟨hzero, hdrawnId, hunused⟩ := h.fresh pending hpending
  refine ⟨?_, ?_, ?_, ?_, ?_, ?_, ?_⟩
  · rw [hpublications, List.getLast?_concat]
    rfl
  · rw [hpublications]
    refine h.distinct_snoc fun hmem => ?_
    obtain ⟨other, hother, hkey⟩ := List.mem_map.mp hmem
    exact hunused other hother (Prod.mk.inj hkey).1
  · intro other hother
    rw [hpublications, List.mem_append, List.mem_singleton] at hother
    rcases hother with hother | rfl
    · exact h.drawn other hother
    · exact hdrawnId
  · intro other hother current hcurrent hsame
    obtain rfl : pending.snapshot = current := Option.some.inj hcurrent
    rw [hpublications, List.mem_append, List.mem_singleton] at hother
    rcases hother with hother | rfl
    · exact absurd hsame (hunused other hother)
    · exact Nat.le_refl _
  · intro other hother
    obtain ⟨hotherZero, hotherDrawn, hotherUnused⟩ := h.fresh other (List.mem_of_mem_erase hother)
    refine ⟨hotherZero, hotherDrawn, fun earlier hearlier => ?_⟩
    rw [hpublications, List.mem_append, List.mem_singleton] at hearlier
    rcases hearlier with hearlier | rfl
    · exact hotherUnused earlier hearlier
    -- The load that is committed has left the list, so the one that is still there has another number.
    · intro hsame
      have hsplit := (List.perm_cons_erase hpending).map fun pending => pending.snapshot.id
      have hapart := hsplit.nodup_iff.mp h.apart
      rw [List.map_cons, List.nodup_cons] at hapart
      exact hapart.1 (hsame ▸ List.mem_map_of_mem hother)
  · exact h.apart.sublist (List.erase_sublist.map _)
  · intro other hother
    obtain ⟨hbase, hsuccessor⟩ := h.based other hother
    exact ⟨publications_subset_append _ _ hbase, hsuccessor⟩

end InOrder

/-- Whether an event asks for edits and gives none. -/
def Event.asksNothing : Event → Bool
  | .edited _ _ edits _ => edits.all fun edit => edit.edits.isEmpty
  | _ => false

/-- How a mutation can end. It follows the published snapshot if that has the key of its base;
otherwise it is refused for that; and edits can fail on their own account, when they are none or while
their base is still published. -/
inductive MutationEnd (world : World) (event : Event) (base : Nat × Nat) (next : World) : Prop where
  | published {old snapshot : Snapshot} (hold : world.store.published = some old)
      (hbase : old.key = base) (hevent : event.publication? = some snapshot)
      (hid : snapshot.id = old.id) (hversion : snapshot.version = old.version + 1)
      (hnext : next.store.published = some snapshot)
  | refused {error : Error} (hfailure : event.failure? = some error)
      (hevent : event.publication? = none)
      (hbase : world.store.ensureCurrent base.1 base.2 = .error error)
      (hnext : next.store.published = world.store.published)
  | empty (hnothing : event.asksNothing = true)
      (hfailure : event.failure? = some (.invalidArgument "No edits to apply"))
      (hevent : event.publication? = none)
      (hnext : next.store.published = world.store.published)
  | faulty {error : Error} {edits : List DocumentEdit} {old : Snapshot}
      (hedits : event = .edited base.1 base.2 edits (.error error))
      (hold : world.store.published = some old) (hbase : old.key = base)
      (hnext : next.store.published = world.store.published)

section

variable {engine : Engine} {world next : World}

theorem commitSync_ends {pending : PendingSync} {successor : Snapshot}
    (hsuccessor : pending.successor = some successor)
    (hkey : successor.id = pending.base.id ∧ successor.version = pending.base.version + 1) :
    MutationEnd world (.synced pending.base (Store.publication (world.store.commitSync pending)))
      pending.base.key
      { world with
        store := (world.store.commitSync pending).2
        syncs := world.syncs.erase pending } := by
  rcases world.store.commitSync_cases hsuccessor with
    ⟨old, hold, hid, hversion, hcommit⟩ | ⟨error, herror, hcommit⟩
  · rw [hcommit]
    exact .published hold (Prod.ext hid hversion) rfl (hkey.1.trans hid.symm)
      (by rw [hkey.2, hversion]) rfl
  · rw [hcommit]
    exact .refused rfl rfl herror rfl

theorem applyEdits_ends_mutation (world : World) (id version : Nat) (edits : List DocumentEdit) :
    MutationEnd world
      (.edited id version edits (Store.publication (world.store.applyEdits id version edits)))
      (id, version) { world with store := (world.store.applyEdits id version edits).2 } := by
  generalize hresult : world.store.applyEdits id version edits = result
  have hends := world.store.applyEdits_ends id version edits
  rw [hresult] at hends
  cases hends with
  | empty hnothing => exact .empty hnothing rfl rfl rfl
  | stale _ hstale => exact .refused rfl rfl hstale rfl
  | misfit _ hcurrent _ =>
      obtain ⟨hold, rfl, rfl⟩ := Store.ensureCurrent_eq_ok.mp hcurrent
      exact .faulty rfl hold rfl rfl
  | unwritten _ hcurrent _ _ _ =>
      obtain ⟨hold, rfl, rfl⟩ := Store.ensureCurrent_eq_ok.mp hcurrent
      exact .faulty rfl hold rfl rfl
  | published _ hcurrent _ _ _ =>
      obtain ⟨hold, rfl, rfl⟩ := Store.ensureCurrent_eq_ok.mp hcurrent
      exact .published hold rfl rfl rfl rfl rfl

/-- Every step that asks for a mutation ends in one of these ways. -/
theorem InOrder.mutationEnd {events : List Event} {event : Event} {base : Nat × Nat}
    (h : InOrder events world) (hstep : Step engine world event next)
    (hbase : event.base? = some base) : MutationEnd world event base next := by
  cases hstep with
  | disturb | tick | prepareLoad | failLoad | commitLoad | prepareSync | failSync
  | commitUnchanged => cases hbase
  | commitSync hmem hsuccessor =>
      obtain rfl := Option.some.inj hbase
      exact commitSync_ends hsuccessor ((h.based _ hmem).2 _ hsuccessor)
  | applyEdits id version edits =>
      obtain rfl := Option.some.inj hbase
      exact applyEdits_ends_mutation world id version edits

/-- A mutation leaves the loads, the numbers and the other syncs alone. -/
theorem World.Step.frame_of_mutation {event : Event} {base : Nat × Nat}
    (hstep : Step engine world event next) (hbase : event.base? = some base) :
    next.loads = world.loads ∧ next.drawn = world.drawn ∧ next.syncs ⊆ world.syncs := by
  cases hstep with
  | disturb | tick | prepareLoad | failLoad | commitLoad | prepareSync | failSync
  | commitUnchanged => cases hbase
  | commitSync => exact ⟨rfl, rfl, List.erase_subset⟩
  | applyEdits => exact ⟨rfl, rfl, List.Subset.refl _⟩

/-- A mutation keeps the order, however it ends. -/
theorem InOrder.mutate {events : List Event} {event : Event} {base : Nat × Nat}
    (h : InOrder events world) (hstep : Step engine world event next)
    (hbase : event.base? = some base) : InOrder (events ++ [event]) next := by
  obtain ⟨hloads, hdrawn, hsyncs⟩ := hstep.frame_of_mutation hbase
  cases h.mutationEnd hstep hbase with
  | published hold _ hevent hid hversion hnext =>
      exact h.advance hold hid hversion hevent hnext hloads hdrawn hsyncs
  | refused _ hevent _ hnext => exact h.quiet hevent hnext hloads hdrawn hsyncs
  | empty _ _ hevent hnext => exact h.quiet hevent hnext hloads hdrawn hsyncs
  | faulty hedits _ _ hnext =>
      exact h.quiet (by rw [hedits]; rfl) hnext hloads hdrawn hsyncs

theorem InOrder.prepareLoad {events : List Event} {id : Nat} {descriptor : String}
    {pending : PendingLoad} (h : InOrder events world) (hfresh : id ∉ world.drawn)
    (hprepare : world.store.prepareLoad engine id descriptor = .done pending) :
    InOrder (events ++ [.prepared pending.snapshot])
      { world with loads := pending :: world.loads, drawn := id :: world.drawn } := by
  have hload := Store.loadOf_of_prepareLoad hprepare
  have hquiet : InOrder (events ++ [.prepared pending.snapshot]) world :=
    h.quiet rfl rfl rfl rfl (List.Subset.refl _)
  -- The number is new, and all numbers that were published or prepared have been drawn.
  have hunused : pending.snapshot.id ∉ world.drawn := hload.id_eq ▸ hfresh
  refine { hquiet with drawn := ?_, fresh := ?_, apart := ?_ }
  · exact fun snapshot hmem => List.mem_cons_of_mem _ (hquiet.drawn snapshot hmem)
  · intro other hmem
    rcases List.mem_cons.mp hmem with rfl | hmem
    · exact ⟨hload.version_eq, hload.id_eq ▸ List.mem_cons_self,
        fun snapshot hsnapshot hsame => hunused (hsame ▸ hquiet.drawn snapshot hsnapshot)⟩
    · obtain ⟨hzero, hdrawn, hother⟩ := hquiet.fresh other hmem
      exact ⟨hzero, List.mem_cons_of_mem _ hdrawn, hother⟩
  · rw [List.map_cons, List.nodup_cons]
    refine ⟨fun hmem => ?_, h.apart⟩
    obtain ⟨other, hother, hsame⟩ := List.mem_map.mp hmem
    exact hunused (hsame ▸ (h.fresh other hother).2.1)

theorem InOrder.prepareSync {events : List Event} {paths : Option (List String)}
    {pending : PendingSync} (h : InOrder events world)
    (hprepare : world.store.prepareSync engine paths = .done pending) :
    InOrder (events ++ [.idle]) { world with syncs := pending :: world.syncs } := by
  obtain ⟨hbase, hsuccessor⟩ := Store.syncOf_of_prepareSync hprepare
  have hquiet : InOrder (events ++ [.idle]) world := h.quiet rfl rfl rfl rfl (List.Subset.refl _)
  refine { hquiet with based := fun other hmem => ?_ }
  rcases List.mem_cons.mp hmem with rfl | hmem
  · exact ⟨hquiet.mem_of_published hbase, fun successor h =>
      ⟨(hsuccessor successor h).id_eq, (hsuccessor successor h).version_eq⟩⟩
  · exact hquiet.based other hmem

/-- Every step keeps the order. -/
theorem InOrder.step {events : List Event} {event : Event} (h : InOrder events world)
    (hstep : Step engine world event next) : InOrder (events ++ [event]) next := by
  cases hbase : event.base? with
  | some base => exact h.mutate hstep hbase
  | none =>
      cases hstep with
      | commitSync | applyEdits => cases hbase
      | disturb => exact h.quiet rfl rfl rfl rfl (List.Subset.refl _)
      | tick => exact h.quiet rfl rfl rfl rfl (List.Subset.refl _)
      | failLoad => exact h.quiet rfl rfl rfl rfl (List.Subset.refl _)
      | failSync => exact h.quiet rfl rfl rfl rfl (List.Subset.refl _)
      | commitUnchanged _ hnone =>
          refine h.quiet rfl ?_ rfl rfl List.erase_subset
          simp [Store.commitSync, hnone]
      | commitLoad hmem => exact h.load hmem
      | prepareLoad hfresh hprepare => exact h.prepareLoad hfresh hprepare
      | prepareSync hprepare => exact h.prepareSync hprepare

/-- Every run is in order. -/
theorem InOrder.of_runs {disk : Disk} {now : String} {events : List Event} {final : World}
    (hrun : Runs (Step engine) (World.initial disk now) events final) : InOrder events final := by
  induction hrun with
  | nil => exact InOrder.initial disk now
  | snoc _ hstep ih => exact ih.step hstep

/-- A base that a publication follows is not published any longer. -/
theorem InOrder.ensureCurrent_ne_ok {events : List Event} {base : Nat × Nat} {snapshot current : Snapshot}
    (h : InOrder events world) (hsnapshot : snapshot ∈ publications events)
    (hkey : snapshot.key = (base.1, base.2 + 1)) :
    world.store.ensureCurrent base.1 base.2 ≠ .ok current := by
  intro hcurrent
  obtain ⟨hpublished, hid, hversion⟩ := Store.ensureCurrent_eq_ok.mp hcurrent
  obtain ⟨hsnapshotId, hsnapshotVersion⟩ := Prod.mk.inj hkey
  have := h.newest snapshot hsnapshot current hpublished (hsnapshotId.trans hid.symm)
  omega

/-- After something was published, a base is refused only as overtaken. -/
theorem InOrder.refusal {events : List Event} {base : Nat × Nat} {error : Error} {snapshot : Snapshot}
    (h : InOrder events world) (hsnapshot : snapshot ∈ publications events)
    (hrefused : world.store.ensureCurrent base.1 base.2 = .error error) :
    error = .reloaded ∨ ∃ actual, error = .conflict base.2 actual := by
  have hcurrent := h.latest.trans (List.getLast?_eq_some_getLast (List.ne_nil_of_mem hsnapshot))
  rcases Store.ensureCurrent_eq_error hcurrent hrefused with ⟨-, herror⟩ | ⟨-, -, herror⟩
  · exact .inl herror
  · exact .inr ⟨_, herror⟩

/-- A mutation on a base that has been built on fails as overtaken, unless it asks for nothing. -/
theorem InOrder.mutation_overtaken {events : List Event} {event : Event} {base : Nat × Nat}
    {snapshot : Snapshot} (h : InOrder events world) (hstep : Step engine world event next)
    (hbase : event.base? = some base) (hsnapshot : snapshot ∈ publications events)
    (hkey : snapshot.key = (base.1, base.2 + 1)) :
    event.failure? = some .reloaded ∨ (∃ actual, event.failure? = some (.conflict base.2 actual)) ∨
      (event.asksNothing = true ∧
        event.failure? = some (.invalidArgument "No edits to apply")) := by
  have hgone : ∀ old, world.store.published = some old → old.key = base → False := by
    rintro old hold rfl
    exact h.ensureCurrent_ne_ok hsnapshot hkey (Store.ensureCurrent_eq_ok.mpr ⟨hold, rfl, rfl⟩)
  cases h.mutationEnd hstep hbase with
  | published hold hkey => exact (hgone _ hold hkey).elim
  | faulty _ hold hkey => exact (hgone _ hold hkey).elim
  | empty hnothing hfailure => exact .inr (.inr ⟨hnothing, hfailure⟩)
  | refused hfailure _ hrefused =>
      rcases h.refusal hsnapshot hrefused with rfl | ⟨actual, rfl⟩
      · exact .inl hfailure
      · exact .inr (.inl ⟨actual, hfailure⟩)

/-- What a mutation puts its successor in the place of. -/
theorem World.Runs.base_of_publication {disk : Disk} {now : String} {before after : List Event}
    {event : Event} {final : World} {base : Nat × Nat} {snapshot : Snapshot}
    (hrun : Runs (Step engine) (World.initial disk now) (before ++ event :: after) final)
    (hbase : event.base? = some base) (hsnapshot : event.publication? = some snapshot) :
    ∃ old, (publications before).getLast? = some old ∧ old.key = base ∧
      snapshot.id = old.id ∧ snapshot.version = old.version + 1 := by
  obtain ⟨world, next, hbefore, hstep⟩ := hrun.step_at
  have hworld := InOrder.of_runs hbefore
  cases hworld.mutationEnd hstep hbase with
  | refused _ hnone | empty _ _ hnone => rw [hnone] at hsnapshot; cases hsnapshot
  | faulty hedits => subst hedits; cases hsnapshot
  | published hold hkey hpublished hid hversion =>
      rw [hsnapshot] at hpublished
      obtain rfl := Option.some.inj hpublished
      exact ⟨_, hworld.latest ▸ hold, hkey, hid, hversion⟩

/-- A sync was worked out on something that had been published. -/
theorem World.Runs.mem_of_synced {disk : Disk} {now : String} {before after : List Event}
    {final : World} {base : Snapshot} {outcome : Except Error Snapshot}
    (hrun : Runs (Step engine) (World.initial disk now) (before ++ .synced base outcome :: after) final) :
    base ∈ publications before := by
  obtain ⟨world, next, hbefore, hstep⟩ := hrun.step_at
  generalize hevent : Event.synced base outcome = event at hstep
  cases hstep with
  | commitSync hpending _ =>
      obtain ⟨rfl, -⟩ := Event.synced.inj hevent
      exact ((InOrder.of_runs hbefore).based _ hpending).1
  | _ => cases hevent

theorem World.Runs.loaded_is_new {disk : Disk} {now : String} {before after : List Event}
    {final : World} {snapshot : Snapshot}
    (hrun : Runs (Step engine) (World.initial disk now) (before ++ .loaded snapshot :: after) final) :
    snapshot.version = 0 ∧ ∀ earlier ∈ publications before, earlier.id ≠ snapshot.id := by
  obtain ⟨world, next, hbefore, hstep⟩ := hrun.step_at
  cases hstep with
  | commitLoad hpending =>
      obtain ⟨hzero, -, hunused⟩ := (InOrder.of_runs hbefore).fresh _ hpending
      exact ⟨hzero, hunused⟩

/-- Once a mutation on a base has been published, those on the same base that follow are overtaken. -/
theorem World.Runs.overtaken {disk : Disk} {now : String} {before middle after : List Event}
    {first second : Event} {final : World} {base : Nat × Nat}
    (hrun : Runs (Step engine) (World.initial disk now)
      (before ++ first :: middle ++ second :: after) final)
    (hfirst : first.base? = some base) (hpublished : first.publication?.isSome)
    (hsecond : second.base? = some base) :
    second.failure? = some .reloaded ∨
      (∃ actual, second.failure? = some (.conflict base.2 actual)) ∨
      (second.asksNothing = true ∧
        second.failure? = some (.invalidArgument "No edits to apply")) := by
  obtain ⟨world, next, hbefore, hstep⟩ := hrun.step_at
  obtain ⟨snapshot, hsnapshot⟩ := Option.isSome_iff_exists.mp hpublished
  obtain ⟨old, -, rfl, hid, hversion⟩ := hbefore.base_of_publication hfirst hsnapshot
  -- The first of the two has put the next version into the history that the second finds.
  have hmem : snapshot ∈ publications (before ++ first :: middle) :=
    List.mem_filterMap.mpr ⟨first, by simp, hsnapshot⟩
  exact (InOrder.of_runs hbefore).mutation_overtaken hstep hsecond hmem (Prod.ext hid hversion)

/-- A mutation that is not published fails as overtaken, unless it is edits: those that are none at
all, those made before anything was published, and those whose base is the published snapshot fail on
their own account. -/
theorem World.Runs.failure_of_unpublished {disk : Disk} {now : String} {before after : List Event}
    {event : Event} {final : World} {base : Nat × Nat}
    (hrun : Runs (Step engine) (World.initial disk now) (before ++ event :: after) final)
    (hbase : event.base? = some base) (hnone : event.publication? = none) :
    event.failure? = some .reloaded ∨ (∃ actual, event.failure? = some (.conflict base.2 actual)) ∨
      ∃ edits error, event = .edited base.1 base.2 edits (.error error) ∧
        (event.asksNothing = true ∨ publications before = [] ∨
          ∃ old, (publications before).getLast? = some old ∧ old.key = base) := by
  obtain ⟨world, next, hbefore, hstep⟩ := hrun.step_at
  have hworld := InOrder.of_runs hbefore
  have hedits : event.asksNothing = true ∨ publications before = [] →
      ∃ edits error, event = .edited base.1 base.2 edits (.error error) := by
    intro hwhy
    cases event with
    | disturbed | idle | prepared | loaded => cases hbase
    | synced computedOn outcome =>
        rcases hwhy with hnothing | hempty
        · cases hnothing
        · exact absurd (hempty ▸ hrun.mem_of_synced) List.not_mem_nil
    | edited id version edits outcome =>
        obtain rfl := Option.some.inj hbase
        cases outcome with
        | ok snapshot => cases hnone
        | error error => exact ⟨edits, error, rfl⟩
  cases hworld.mutationEnd hstep hbase with
  | published _ _ hevent => rw [hnone] at hevent; cases hevent
  | empty hnothing =>
      obtain ⟨edits, error, hevent⟩ := hedits (.inl hnothing)
      exact .inr (.inr ⟨edits, error, hevent, .inl hnothing⟩)
  | faulty hevent hold hkey =>
      exact .inr (.inr ⟨_, _, hevent, .inr (.inr ⟨_, hworld.latest ▸ hold, hkey⟩)⟩)
  | refused hfailure _ hrefused =>
      cases hpublications : publications before with
      | nil =>
          obtain ⟨edits, error, hevent⟩ := hedits (.inr hpublications)
          exact .inr (.inr ⟨edits, error, hevent, .inr (.inl rfl)⟩)
      | cons snapshot _ =>
          have hmem : snapshot ∈ publications before := hpublications ▸ List.mem_cons_self
          rcases hworld.refusal hmem hrefused with rfl | ⟨actual, rfl⟩
          · exact .inl hfailure
          · exact .inr (.inl ⟨actual, hfailure⟩)

/-- No update is lost. What is published is the last publication. A mutation that is published takes
the place of the snapshot of its base, which is the only publication of that key and, for a sync, the
very snapshot that it was worked out on; it keeps the load and goes one version on. A load publishes
version zero under a number of its own. So no key is published twice, and of the mutations on one base
at most one is published: those after it fail as overtaken, save edits that are none at all. Whatever
else is not published fails so too, save edits that are at fault themselves. -/
theorem mutations_replace_their_base {disk : Disk} {now : String} {events : List Event}
    {final : World} (hrun : Runs (Step engine) (World.initial disk now) events final) :
    final.store.published = (publications events).getLast? ∧
    (∀ (before : List Event) (event : Event) (after : List Event) (base : Nat × Nat)
      (snapshot : Snapshot), events = before ++ event :: after →
      event.base? = some base → event.publication? = some snapshot →
      ∃ old, (publications before).getLast? = some old ∧ old.key = base ∧
        (∀ other ∈ publications events, other.key = base → other = old) ∧
        (∀ computedOn outcome, event = .synced computedOn outcome → computedOn = old) ∧
        snapshot.id = old.id ∧ snapshot.version = old.version + 1) ∧
    (∀ (before : List Event) (snapshot : Snapshot) (after : List Event),
      events = before ++ .loaded snapshot :: after →
      snapshot.version = 0 ∧ ∀ earlier ∈ publications before, earlier.id ≠ snapshot.id) ∧
    ((publications events).map Snapshot.key).Nodup ∧
    (∀ (before : List Event) (first : Event) (middle : List Event) (second : Event)
      (after : List Event) (base : Nat × Nat),
      events = before ++ first :: middle ++ second :: after → first.base? = some base →
      first.publication?.isSome → second.base? = some base →
      second.failure? = some .reloaded ∨
        (∃ actual, second.failure? = some (.conflict base.2 actual)) ∨
        (second.asksNothing = true ∧
          second.failure? = some (.invalidArgument "No edits to apply"))) ∧
    (∀ (before : List Event) (event : Event) (after : List Event) (base : Nat × Nat),
      events = before ++ event :: after → event.base? = some base → event.publication? = none →
      event.failure? = some .reloaded ∨
        (∃ actual, event.failure? = some (.conflict base.2 actual)) ∨
        ∃ edits error, event = .edited base.1 base.2 edits (.error error) ∧
          (event.asksNothing = true ∨ publications before = [] ∨
            ∃ old, (publications before).getLast? = some old ∧ old.key = base)) := by
  have horder := InOrder.of_runs hrun
  refine ⟨horder.latest, ?_, ?_, horder.distinct, ?_, ?_⟩
  · rintro before event after base snapshot rfl hbase hsnapshot
    obtain ⟨old, hold, hkey, hid, hversion⟩ := hrun.base_of_publication hbase hsnapshot
    have hmem := publications_subset_append before (event :: after) (List.mem_of_getLast? hold)
    refine ⟨old, hold, hkey, ?_, ?_, hid, hversion⟩
    · intro other hother hsame
      exact horder.eq_of_key_eq hother hmem (hsame.trans hkey.symm)
    · rintro computedOn outcome rfl
      obtain rfl := Option.some.inj hbase
      refine horder.eq_of_key_eq (publications_subset_append before _ ?_) hmem hkey.symm
      exact hrun.mem_of_synced
  · rintro before snapshot after rfl
    exact hrun.loaded_is_new
  · rintro before first middle second after base rfl hfirst hpublished hsecond
    exact hrun.overtaken hfirst hpublished hsecond
  · rintro before event after base rfl hbase hnone
    exact hrun.failure_of_unpublished hbase hnone

end

/-! ### A workspace of one file

The smallest run in which a mutation is published and others on the same base are not. -/

/-- A disk with one file. -/
def soloDisk (text : String) : Disk := { top := .folder [("a", .file text.toUTF8)] }

/-- An engine that finds that file in every solution and has nothing to say about it. -/
def soloEngine : Engine where
  loadSolution _ _ := .done ⟨"/", [⟨"solo", "text", [], "", ["a"]⟩]⟩
  isValidIdentifier _ := true
  documentSymbols _ := .done []
  symbolAt _ _ _ := .done none
  definition _ _ _ := .done none
  references _ _ _ := .done []
  methodAt _ _ _ := .failed (.notFound "no method")
  callers _ _ _ := .done []
  outgoingCalls _ _ _ := .done []
  renameEdits _ _ _ _ := .done []
  codeActions _ _ _ := .done []
  diagnostics _ _ := .done []
  methodComplexity _ := .done []

/-- The workspace of that file. -/
def soloSnapshot (id version : Nat) (text : String) : Snapshot :=
  ⟨id, version, "/", "/", [⟨"solo", "text", [], ".", ["a"]⟩], [("a", ⟨"a", text, version⟩)], ""⟩

/-- An insertion at the start of a line of the file. -/
def soloEdits (line : Nat) : List DocumentEdit := [⟨"a", [.insert ⟨line, 0⟩ "y"]⟩]

/-- A world with that disk. -/
def soloWorld (text : String) (published : Option Snapshot) (loads : List PendingLoad)
    (drawn : List Nat) : World :=
  { store := { disk := soloDisk text, published }, loads, drawn }

section

variable (text : String) (published : Option Snapshot) (loads : List PendingLoad)
  (drawn : List Nat)

theorem normalPath_solo (disk : Disk) (root : String) :
    (Snapshot.normalPath disk root "a").mapError CoordinateError.toError = .ok "a" :=
  Snapshot.normalPath_eq_ok.mpr
    (disk.normal?_ofRelative root ["a"] (by simp [Path.IsName]) (by decide))

theorem join_solo : Path.join "/" "a" = "/a" := by decide

theorem read_soloDisk : (soloDisk text).read "/a" = .ok text.toUTF8 := by cbv

theorem writePlace_soloDisk : (soloDisk text).writePlace "/a" = .ok ["a"] := by
  have hadmissible : Disk.admissible "/a" = .ok () := by cbv
  have hstep : Path.lastStep? "/a" = some ⟨[""], "a", false⟩ := by decide
  have hfollow : (soloDisk text).follow Disk.mostLinks [] [""] = .ok ([], Disk.mostLinks) := by cbv
  have hstart : Disk.startOf (soloDisk text).workingPlace "/a" = [] := rfl
  rw [Disk.writePlace, hadmissible]
  change (soloDisk text).writePlaceFrom Disk.mostLinks (soloDisk text).workingPlace "/a" = _
  rw [Disk.writePlaceFrom, hstep]
  dsimp only
  split
  · rename_i hfault
    rw [hstart, hfollow] at hfault
    cases hfault
  · rename_i hfound
    rw [hstart, hfollow] at hfound
    obtain ⟨rfl, rfl⟩ := Prod.mk.inj (Except.ok.inj hfound)
    rfl

theorem write_soloDisk (new : String) :
    (soloDisk text).write "/a" new.toUTF8 = .ok (soloDisk new) := by
  rw [Disk.write, writePlace_soloDisk]
  rfl

theorem readSource_soloDisk : (soloDisk text).readSource "/a" = .ok (some text) := by
  rw [Disk.readSource, read_soloDisk]
  dsimp only
  rw [Text.ofBytes_toUTF8]

theorem memberPaths_solo (disk : Disk) :
    Solution.memberPaths disk ⟨"/", [⟨"solo", "text", [], "", ["a"]⟩]⟩ = .ok ["a"] :=
  Solution.memberPaths_of_single rfl
    (disk.normal?_ofRelative "/" ["a"] (by simp [Path.IsName]) (by decide))

theorem describe_solo (disk : Disk) (document : Document) :
    Solution.describe disk ⟨"/", [⟨"solo", "text", [], "", ["a"]⟩]⟩ [("a", document)] =
      .ok [⟨"solo", "text", [], ".", ["a"]⟩] :=
  Solution.describe_of_root _ (disk.normal?_ofRelative "/" [] (by simp) (by decide))

theorem prepareLoad_solo (id : Nat) :
    (soloWorld text published loads drawn).store.prepareLoad soloEngine id "/" =
      .done ⟨soloSnapshot id 0 text⟩ := by
  have hexists : (soloDisk text).pathExists "/" = true := by cbv
  have hcanonical : (soloDisk text).canonical? "/" = some "/" := by cbv
  have hdocuments : (soloDisk text).readDocuments "/" ["a"] = .ok [("a", ⟨"a", text, 0⟩)] :=
    Disk.readDocuments_of_single (join_solo ▸ readSource_soloDisk text)
  have hsolution : soloEngine.loadSolution (soloDisk text) "/" =
      .done ⟨"/", [⟨"solo", "text", [], "", ["a"]⟩]⟩ := rfl
  exact Store.prepareLoad_of_found { disk := soloDisk text, published } id hexists hcanonical
    hsolution (memberPaths_solo _) hdocuments (describe_solo _ _)

theorem step_solo_load (id : Nat) (hfresh : id ∉ drawn) :
    Step soloEngine (soloWorld text published loads drawn) (.prepared (soloSnapshot id 0 text))
      (soloWorld text published (⟨soloSnapshot id 0 text⟩ :: loads) (id :: drawn)) :=
  .prepareLoad hfresh (prepareLoad_solo text published loads drawn id)

theorem grouped_solo (disk : Disk) (edits : List TextEdit) :
    Store.grouped disk "/" [⟨"a", edits⟩] = .ok [("a", edits)] := by
  rw [Store.grouped, List.foldlM_cons, normalPath_solo]
  rfl

theorem ensureCurrent_solo (onDisk : String) :
    (soloWorld onDisk (some (soloSnapshot 0 0 text)) loads drawn).store.ensureCurrent 0 0 =
      .ok (soloSnapshot 0 0 text) := Store.ensureCurrent_eq_ok.mpr ⟨rfl, rfl, rfl⟩

theorem edited_solo {edits : List TextEdit} {new : String}
    (hedits : Document.applyEdits ⟨"a", text, 0⟩ edits 1 = .ok ⟨"a", new, 1⟩) :
    Store.edited (soloSnapshot 0 0 text) [("a", edits)] =
      .ok [(⟨"a", text, 0⟩, ⟨"a", new, 1⟩)] :=
  mapM_eq_ok.mpr (.cons (bind_eq_ok.mpr ⟨_, hedits, rfl⟩) .nil)

/-- Edits that fit the text of the snapshot are made, whatever text the file has by now. -/
theorem applyEdits_solo_over (onDisk : String) {edits : List TextEdit} {new : String}
    (hsome : edits.isEmpty = false)
    (hedits : Document.applyEdits ⟨"a", text, 0⟩ edits 1 = .ok ⟨"a", new, 1⟩) :
    (soloWorld onDisk (some (soloSnapshot 0 0 text)) loads drawn).store.applyEdits 0 0
        [⟨"a", edits⟩] =
      (.ok 1, (soloWorld new (some (soloSnapshot 0 1 new)) loads drawn).store) := by
  have hwritten : Store.writeBack "/" [] (soloDisk onDisk) [(⟨"a", text, 0⟩, ⟨"a", new, 1⟩)] =
      (.ok (), soloDisk new) := by
    rw [Store.writeBack_cons, join_solo, write_soloDisk]
    rfl
  have hnext : Store.replaced [("a", ⟨"a", text, 0⟩)] [(⟨"a", text, 0⟩, ⟨"a", new, 1⟩)] =
      [("a", ⟨"a", new, 1⟩)] := by
    simp [Store.replaced, Keyed.insert]
  rw [Store.applyEdits_of_written (by simpa using hsome) (ensureCurrent_solo text loads drawn onDisk)
    (grouped_solo _ edits) (edited_solo text hedits) hwritten]
  simp only [Store.successorOf, soloWorld, soloSnapshot, hnext]

theorem applyEdits_solo {edits : List TextEdit} {new : String} (hsome : edits.isEmpty = false)
    (hedits : Document.applyEdits ⟨"a", text, 0⟩ edits 1 = .ok ⟨"a", new, 1⟩) :
    (soloWorld text (some (soloSnapshot 0 0 text)) loads drawn).store.applyEdits 0 0 [⟨"a", edits⟩] =
      (.ok 1, (soloWorld new (some (soloSnapshot 0 1 new)) loads drawn).store) :=
  applyEdits_solo_over text loads drawn text hsome hedits

/-- The file has only one line. -/
theorem step_solo_misfit :
    Step soloEngine (soloWorld "x" (some (soloSnapshot 0 0 "x")) loads drawn)
      (.edited 0 0 (soloEdits 1) (.error (CoordinateError.lineOutOfRange 1 1).toError))
      (soloWorld "x" (some (soloSnapshot 0 0 "x")) loads drawn) := by
  have hsplice : Document.splice ⟨"a", "x", 0⟩ (.insert ⟨1, 0⟩ "y") =
      .error (CoordinateError.lineOutOfRange 1 1).toError := rfl
  have hedited : Store.edited (soloSnapshot 0 0 "x") [("a", [.insert ⟨1, 0⟩ "y"])] =
      .error (CoordinateError.lineOutOfRange 1 1).toError := by
    simp [Store.edited, Snapshot.document?, soloSnapshot, Keyed.get?, Document.applyEdits, hsplice,
      bind, Except.bind]
  have hmisfit := Store.applyEdits_of_misfit (show (soloEdits 1).all _ = false by decide)
    (ensureCurrent_solo "x" loads drawn "x") (bind_eq_error.mpr (.inr ⟨_, grouped_solo _ _, hedited⟩))
  have hstep : Step soloEngine (soloWorld "x" (some (soloSnapshot 0 0 "x")) loads drawn) _ _ :=
    .applyEdits _ 0 0 (soloEdits 1)
  rw [hmisfit] at hstep
  exact hstep

theorem step_solo_edit :
    Step soloEngine (soloWorld "x" (some (soloSnapshot 0 0 "x")) loads drawn)
      (.edited 0 0 (soloEdits 0) (.ok (soloSnapshot 0 1 "yx")))
      (soloWorld "yx" (some (soloSnapshot 0 1 "yx")) loads drawn) := by
  have hmade := applyEdits_solo "x" loads drawn rfl
    (show Document.applyEdits ⟨"a", "x", 0⟩ [.insert ⟨0, 0⟩ "y"] 1 = .ok ⟨"a", "yx", 1⟩ by cbv)
  have hstep : Step soloEngine (soloWorld "x" (some (soloSnapshot 0 0 "x")) loads drawn) _ _ :=
    .applyEdits _ 0 0 (soloEdits 0)
  rw [soloEdits, hmade] at hstep
  exact hstep

end

/-- The file is loaded; of two edits of it the first does not fit and the second is made; a third one
comes too late. -/
def soloEvents : List Event :=
  [.prepared (soloSnapshot 0 0 "x"), .loaded (soloSnapshot 0 0 "x"),
    .edited 0 0 (soloEdits 1) (.error (CoordinateError.lineOutOfRange 1 1).toError),
    .edited 0 0 (soloEdits 0) (.ok (soloSnapshot 0 1 "yx")),
    .edited 0 0 (soloEdits 0) (.error (.conflict 0 1))]

theorem runs_soloEvents :
    Runs (Step soloEngine) (World.initial (soloDisk "x") "") soloEvents
      (soloWorld "yx" (some (soloSnapshot 0 1 "yx")) [] [0]) := by
  have hprepared := Runs.nil.snoc (step_solo_load "x" none [] [] 0 List.not_mem_nil)
  have hloaded := hprepared.snoc (.commitLoad List.mem_cons_self)
  have hmade := (hloaded.snoc (step_solo_misfit [] [0])).snoc (step_solo_edit [] [0])
  exact hmade.snoc (.applyEdits _ 0 0 (soloEdits 0))

/-- The edit that is made takes the place of the load that it was worked out on, and the one after it
fails as overtaken. -/
theorem solo_edit_replaces_load :
    (∃ old, (publications (soloEvents.take 3)).getLast? = some old ∧ old.key = (0, 0) ∧
      (soloSnapshot 0 1 "yx").version = old.version + 1) ∧
    ((publications soloEvents).map Snapshot.key).Nodup := by
  obtain ⟨-, hreplace, -, hdistinct, -⟩ := mutations_replace_their_base runs_soloEvents
  obtain ⟨old, hold, hkey, -, -, -, hversion⟩ :=
    hreplace (soloEvents.take 3) _ (soloEvents.drop 4) (0, 0) (soloSnapshot 0 1 "yx") rfl rfl rfl
  exact ⟨⟨old, hold, hkey, hversion⟩, hdistinct⟩

/-- A mutation on a base on which another one is published need not fail as overtaken: the edit that
does not fit fails for that. -/
theorem unpublished_mutation_not_overtaken :
    ¬ ∀ events final, Runs (Step soloEngine) (World.initial (soloDisk "x") "") events final →
      ∀ first ∈ events, ∀ second ∈ events, ∀ base, first.base? = some base →
        first.publication?.isSome → second.base? = some base → second.publication? = none →
        second.failure? = some .reloaded ∨
          ∃ actual, second.failure? = some (.conflict base.2 actual) := by
  intro hall
  have hfailure := hall soloEvents _ runs_soloEvents
    (.edited 0 0 (soloEdits 0) (.ok (soloSnapshot 0 1 "yx"))) (by simp [soloEvents])
    (.edited 0 0 (soloEdits 1) (.error (CoordinateError.lineOutOfRange 1 1).toError))
    (by simp [soloEvents]) (0, 0) rfl rfl rfl rfl
  simp [Event.failure?, CoordinateError.toError] at hfailure

end CodeIntel
