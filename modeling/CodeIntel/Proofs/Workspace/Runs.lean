import CodeIntel.Proofs.Workspace.Operations
import Mathlib.Data.List.Induction

/-! Runs of a workspace that any number of clients share. A step is one call of one client, or a change
of the disk that no client makes. A preparation hands its result to the client, who may commit it at
any later time and only once; between the two anything can happen. The events of a run record what
was prepared, what was published and which mutations were asked for on which base. -/

namespace CodeIntel

/-- The load and the version that tell a snapshot from all others. -/
def Snapshot.key (snapshot : Snapshot) : Nat × Nat := (snapshot.id, snapshot.version)

/-- What a call published, or why it failed. -/
def Store.publication {α : Type} (result : Except Error α × Store) : Except Error Snapshot := do
  let _ ← result.1
  result.2.current

/-- A store with what its clients hold. -/
structure World where
  store : Store
  /-- The loads that were prepared and not committed. -/
  loads : List PendingLoad := []
  /-- The syncs that were prepared and not committed. -/
  syncs : List PendingSync := []
  /-- The numbers that loads have drawn. -/
  drawn : List Nat := []

/-- What a step shows. -/
inductive Event where
  /-- The disk was changed by none of the clients. -/
  | disturbed
  /-- Nothing was published, and nothing was asked to be. -/
  | idle
  /-- A load was prepared. -/
  | prepared (snapshot : Snapshot)
  /-- A load was committed. -/
  | loaded (snapshot : Snapshot)
  /-- A sync that had found changes was committed: what it was worked out on and how it ended. -/
  | synced (base : Snapshot) (outcome : Except Error Snapshot)
  /-- Edits were to be made: what they were worked out on and how they ended. -/
  | edited (id version : Nat) (edits : List DocumentEdit) (outcome : Except Error Snapshot)

namespace Event

/-- The snapshot that was published. -/
def publication? : Event → Option Snapshot
  | .loaded snapshot | .synced _ (.ok snapshot) | .edited _ _ _ (.ok snapshot) => some snapshot
  | _ => none

/-- The key of the snapshot that a mutation was based on. -/
def base? : Event → Option (Nat × Nat)
  | .synced base _ => some base.key
  | .edited id version _ _ => some (id, version)
  | _ => none

/-- Why a mutation failed. -/
def failure? : Event → Option Error
  | .synced _ (.error error) | .edited _ _ _ (.error error) => some error
  | _ => none

end Event

/-- The snapshots that were published, the earliest first. -/
def publications (events : List Event) : List Snapshot := events.filterMap Event.publication?

namespace World

/-- A world in which nothing has been loaded. -/
def initial (disk : Disk) (now : String) : World := { store := { disk, now } }

/-- One step. A load is prepared under a number that none has drawn before it. -/
inductive Step (engine : Engine) : World → Event → World → Prop where
  | disturb (world : World) (disk : Disk) :
      Step engine world .disturbed { world with store := { world.store with disk } }
  | tick (world : World) (now : String) :
      Step engine world .idle { world with store := { world.store with now } }
  | prepareLoad {world : World} {id : Nat} {descriptor : String} {pending : PendingLoad} :
      id ∉ world.drawn → world.store.prepareLoad engine id descriptor = .done pending →
      Step engine world (.prepared pending.snapshot)
        { world with loads := pending :: world.loads, drawn := id :: world.drawn }
  | failLoad {world : World} {id : Nat} {descriptor : String} :
      (∀ pending, world.store.prepareLoad engine id descriptor ≠ .done pending) →
      Step engine world .idle world
  | commitLoad {world : World} {pending : PendingLoad} : pending ∈ world.loads →
      Step engine world (.loaded pending.snapshot)
        { world with
          store := (world.store.commitLoad pending).2
          loads := world.loads.erase pending }
  | prepareSync {world : World} {paths : Option (List String)} {pending : PendingSync} :
      world.store.prepareSync engine paths = .done pending →
      Step engine world .idle { world with syncs := pending :: world.syncs }
  | failSync {world : World} {paths : Option (List String)} :
      (∀ pending, world.store.prepareSync engine paths ≠ .done pending) →
      Step engine world .idle world
  | commitUnchanged {world : World} {pending : PendingSync} : pending ∈ world.syncs →
      pending.successor = none →
      Step engine world .idle
        { world with
          store := (world.store.commitSync pending).2
          syncs := world.syncs.erase pending }
  | commitSync {world : World} {pending : PendingSync} {successor : Snapshot} :
      pending ∈ world.syncs → pending.successor = some successor →
      Step engine world
        (.synced pending.base (Store.publication (world.store.commitSync pending)))
        { world with
          store := (world.store.commitSync pending).2
          syncs := world.syncs.erase pending }
  | applyEdits (world : World) (id version : Nat) (edits : List DocumentEdit) :
      Step engine world
        (.edited id version edits (Store.publication (world.store.applyEdits id version edits)))
        { world with store := (world.store.applyEdits id version edits).2 }

/-- Steps of some kind, one after another, with their events. -/
inductive Runs (step : World → Event → World → Prop) (start : World) :
    List Event → World → Prop where
  | nil : Runs step start [] start
  | snoc {events : List Event} {middle final : World} {event : Event} :
      Runs step start events middle → step middle event final →
      Runs step start (events ++ [event]) final

/-- A run that goes on after some events was a run up to them. -/
theorem Runs.split {step : World → Event → World → Prop} {start final : World}
    {before after : List Event} (h : Runs step start (before ++ after) final) :
    ∃ middle, Runs step start before middle := by
  induction after using List.reverseRecOn generalizing final with
  | nil => exact ⟨final, by simpa using h⟩
  | append_singleton after event ih =>
      generalize hevents : before ++ (after ++ [event]) = events at h
      cases h with
      | nil => simp at hevents
      | snoc hrun _ =>
          rw [← List.append_assoc] at hevents
          obtain ⟨rfl, -⟩ := List.append_inj' hevents rfl
          exact ih hrun

/-- The step of a run at one of its events, with the run before it. -/
theorem Runs.step_at {step : World → Event → World → Prop} {start final : World}
    {before after : List Event} {event : Event}
    (h : Runs step start (before ++ event :: after) final) :
    ∃ world next, Runs step start before world ∧ step world event next := by
  rw [List.append_cons] at h
  obtain ⟨next, hrun⟩ := h.split
  generalize hevents : before ++ [event] = events at hrun
  cases hrun with
  | nil => simp at hevents
  | snoc hrun hstep =>
      obtain ⟨rfl, hlast⟩ := List.append_inj' hevents rfl
      obtain rfl := List.singleton_inj.mp hlast
      exact ⟨_, _, hrun, hstep⟩

end World

end CodeIntel
