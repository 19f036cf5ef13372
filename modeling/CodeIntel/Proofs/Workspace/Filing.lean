import CodeIntel.Proofs.Workspace.Documents
import CodeIntel.Proofs.Workspace.Runs

/-! Snapshots in a run. A snapshot that is published, or that a client may publish, comes from a load,
from a sync or from edits of one before it, whatever happens to the disk in between. So the documents
of all of them stand in order and under their own paths. -/

namespace CodeIntel

open World

/-- The snapshots that are published or may be. -/
def World.Holds (world : World) (snapshot : Snapshot) : Prop :=
  world.store.published = some snapshot ∨ (∃ pending ∈ world.loads, pending.snapshot = snapshot) ∨
    ∃ pending ∈ world.syncs, pending.successor = some snapshot

/-- Where a snapshot comes from that a world holds after a step: it was there before, or the step made
it from what was published. -/
inductive World.Origin (engine : Engine) (world : World) (snapshot : Snapshot) : Prop where
  | held : world.Holds snapshot → Origin engine world snapshot
  | load {id : Nat} {descriptor : String} :
      Store.LoadOf engine world.store id descriptor snapshot → Origin engine world snapshot
  | sync {base : Snapshot} : world.store.published = some base →
      Store.SyncOf engine world.store base snapshot → Origin engine world snapshot
  | edits {base : Snapshot} {groups : Keyed (List TextEdit)} {changed : List (Document × Document)} :
      world.store.published = some base → groups.Ascending →
      Store.edited base groups = .ok changed →
      snapshot = Store.successorOf world.store base changed → Origin engine world snapshot

section

variable {engine : Engine} {world next : World} {event : Event} {snapshot : Snapshot}

/-- A step that publishes nothing and takes up nothing brings no snapshot. -/
theorem World.Holds.of_fewer (world : World) (hholds : next.Holds snapshot)
    (hpublished : next.store.published = world.store.published) (hloads : next.loads ⊆ world.loads)
    (hsyncs : next.syncs ⊆ world.syncs) : world.Holds snapshot := by
  rcases hholds with hsnapshot | ⟨pending, hmem, hpending⟩ | ⟨pending, hmem, hpending⟩
  · exact .inl (hpublished ▸ hsnapshot)
  · exact .inr (.inl ⟨pending, hloads hmem, hpending⟩)
  · exact .inr (.inr ⟨pending, hsyncs hmem, hpending⟩)

/-- A publication brings no other snapshot. -/
theorem World.Holds.of_publish (world : World) (hholds : next.Holds snapshot) {published : Snapshot}
    (hpublished : next.store.published = some published) (hloads : next.loads ⊆ world.loads)
    (hsyncs : next.syncs ⊆ world.syncs) : snapshot = published ∨ world.Holds snapshot := by
  rcases hholds with hsnapshot | ⟨pending, hmem, hpending⟩ | ⟨pending, hmem, hpending⟩
  · exact .inl (Option.some.inj (hsnapshot.symm.trans hpublished))
  · exact .inr (.inr (.inl ⟨pending, hloads hmem, hpending⟩))
  · exact .inr (.inr (.inr ⟨pending, hsyncs hmem, hpending⟩))

theorem World.Step.origin (hstep : Step engine world event next) (hholds : next.Holds snapshot) :
    Origin engine world snapshot := by
  cases hstep with
  | disturb | tick | failLoad | failSync => exact .held hholds
  | prepareLoad hfresh hprepare =>
      rcases hholds with hpublished | ⟨pending, hmem, rfl⟩ | hsync
      · exact .held (.inl hpublished)
      · rcases List.mem_cons.mp hmem with rfl | hmem
        · exact .load (Store.loadOf_of_prepareLoad hprepare)
        · exact .held (.inr (.inl ⟨pending, hmem, rfl⟩))
      · exact .held (.inr (.inr hsync))
  | @commitLoad pending hmem =>
      rcases hholds.of_publish world rfl List.erase_subset (List.Subset.refl _) with rfl | hheld
      · exact .held (.inr (.inl ⟨pending, hmem, rfl⟩))
      · exact .held hheld
  | prepareSync hprepare =>
      obtain ⟨hbase, hsync⟩ := Store.syncOf_of_prepareSync hprepare
      rcases hholds with hpublished | hload | ⟨pending, hmem, hsuccessor⟩
      · exact .held (.inl hpublished)
      · exact .held (.inr (.inl hload))
      · rcases List.mem_cons.mp hmem with rfl | hmem
        · exact .sync hbase (hsync snapshot hsuccessor)
        · exact .held (.inr (.inr ⟨pending, hmem, hsuccessor⟩))
  | commitUnchanged hmem hnone =>
      refine .held (hholds.of_fewer world ?_ (List.Subset.refl _) List.erase_subset)
      rw [Store.commitSync, hnone]
  | @commitSync pending successor hmem hsuccessor =>
      rcases world.store.commitSync_cases hsuccessor with
        ⟨_, -, -, -, hcommit⟩ | ⟨error, -, hcommit⟩
      · rw [hcommit] at hholds
        rcases hholds.of_publish world rfl (List.Subset.refl _) List.erase_subset with rfl | hheld
        · exact .held (.inr (.inr ⟨pending, hmem, hsuccessor⟩))
        · exact .held hheld
      · rw [hcommit] at hholds
        exact .held (hholds.of_fewer world rfl (List.Subset.refl _) List.erase_subset)
  | applyEdits id version edits =>
      have hends := world.store.applyEdits_ends id version edits
      generalize world.store.applyEdits id version edits = result at hholds hends
      cases hends with
      | empty | stale | misfit | unwritten => exact .held hholds
      | published _ hcurrent hgroups hchanged _ =>
          rcases hholds.of_publish world rfl (List.Subset.refl _) (List.Subset.refl _) with rfl | hheld
          · exact .edits (Store.ensureCurrent_eq_ok.mp hcurrent).1 (Store.grouped_ascending hgroups)
              hchanged rfl
          · exact .held hheld

/-- The documents of all snapshots stand in order. -/
def World.AllFiled (world : World) : Prop :=
  ∀ snapshot, world.Holds snapshot → Filed snapshot.documents

theorem World.AllFiled.initial (disk : Disk) (now : String) : (World.initial disk now).AllFiled := by
  rintro snapshot (hpublished | ⟨_, hmem, -⟩ | ⟨_, hmem, -⟩)
  · cases hpublished
  · cases hmem
  · cases hmem

theorem World.AllFiled.step (h : world.AllFiled) (hstep : Step engine world event next) :
    next.AllFiled := by
  intro snapshot hholds
  cases hstep.origin hholds with
  | held hheld => exact h snapshot hheld
  | load hload => exact hload.documents_on_disk.1
  | sync hbase hsync => exact (hsync.syncedSofar (h _ (.inl hbase))).1
  | edits hbase hgroups hchanged hsnapshot =>
      have hfiled := h _ (.inl hbase)
      have hrewrites := Store.rewrites_of_edited hfiled hgroups hchanged
      rw [hsnapshot]
      exact Store.filed_replaced hfiled fun pair hmem => hrewrites.isKey hfiled hmem

/-- In every run, whatever happens to the disk, the documents of the published snapshot stand in order
and under their own paths. -/
theorem filed_of_runs {disk : Disk} {now : String} {events : List Event} {final : World}
    (hrun : Runs (Step engine) (World.initial disk now) events final)
    (hpublished : final.store.published = some snapshot) : Filed snapshot.documents := by
  have hfiled : final.AllFiled := by
    clear hpublished
    induction hrun with
    | nil => exact AllFiled.initial disk now
    | snoc _ hstep ih => exact ih.step hstep
  exact hfiled snapshot (.inl hpublished)

end

end CodeIntel
