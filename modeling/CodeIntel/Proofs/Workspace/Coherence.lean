import CodeIntel.Proofs.Workspace.Filing
import CodeIntel.Proofs.Workspace.History

/-! Snapshot and disk agree as long as only the clients change the disk and no write is refused. Edits write
what they publish, a sync is published only over the snapshot that it was worked out on, so that nothing
was written in between; but a load is published whatever happened since it was prepared. So all
documents of the published snapshot have the texts of their files, save those that are still as a load
brought them that was prepared before some edits were made and committed after. What a write does that
is refused is left open, and a file that it leaves half written is unlike its document. -/

namespace CodeIntel

open World
open Disk (SameTree)

/-! ### Ways to write a file -/

/-- A writer has done what a write does whenever it reports success. What it leaves when it refuses is
open. -/
def FileWriter.Honest (writer : FileWriter) : Prop :=
  ∀ disk path content after, writer disk path content = (.ok (), after) →
    disk.write path content = .ok after

theorem honest_wholeWriter : FileWriter.Honest wholeWriter := by
  intro disk path content after h
  rw [wholeWriter, Disk.written] at h
  cases hwrite : disk.write path content with
  | ok other =>
      rw [hwrite] at h
      exact congrArg Except.ok (Prod.mk.inj h).2
  | error fault =>
      rw [hwrite] at h
      cases (Prod.mk.inj h).1

namespace Store

/-- No write that edits come to is refused. -/
def WritesSucceed (writer : FileWriter) (store : Store) (id version : Nat) (edits : List DocumentEdit) :
    Prop :=
  ∀ snapshot groups changed, store.ensureCurrent id version = .ok snapshot →
    grouped store.disk snapshot.root edits = .ok groups → edited snapshot groups = .ok changed →
    (writeBackBy writer snapshot.root [] store.disk changed).1 = .ok ()

variable {writer : FileWriter}

theorem writeBack_of_honest (hhonest : FileWriter.Honest writer) {root : String} {written : List Document}
    {disk after : Disk} {changed : List (Document × Document)}
    (h : writeBackBy writer root written disk changed = (.ok (), after)) :
    writeBack root written disk changed = (.ok (), after) := by
  induction changed generalizing written disk with
  | nil => exact h
  | cons pair rest ih =>
      obtain ⟨before, next⟩ := pair
      rw [writeBackBy] at h
      split at h
      · rename_i done middle hwrite
        rw [writeBack_cons, hhonest _ _ _ _ hwrite]
        exact ih h
      · cases (Prod.mk.inj h).1

theorem WritesSucceed.writeBack (hhonest : FileWriter.Honest writer) {store : Store} {id version : Nat}
    {edits : List DocumentEdit} (h : store.WritesSucceed writer id version edits) {snapshot : Snapshot}
    {groups : Keyed (List TextEdit)} {changed : List (Document × Document)}
    (hcurrent : store.ensureCurrent id version = .ok snapshot)
    (hgroups : grouped store.disk snapshot.root edits = .ok groups)
    (hchanged : edited snapshot groups = .ok changed) :
    ∃ disk, writeBackBy writer snapshot.root [] store.disk changed = (.ok (), disk) ∧
      Store.writeBack snapshot.root [] store.disk changed = (.ok (), disk) := by
  have hsucceeds := h _ _ _ hcurrent hgroups hchanged
  rcases hby : writeBackBy writer snapshot.root [] store.disk changed with ⟨done, disk⟩
  rw [hby] at hsucceeds
  obtain rfl := hsucceeds
  exact ⟨disk, rfl, writeBack_of_honest hhonest hby⟩

/-- When no write is refused it does not matter how the files are written. -/
theorem applyEditsBy_of_honest (hhonest : FileWriter.Honest writer) {store : Store} {id version : Nat}
    {edits : List DocumentEdit} (hwrites : store.WritesSucceed writer id version edits) :
    store.applyEditsBy writer id version edits = store.applyEdits id version edits := by
  have hends := store.applyEdits_ends id version edits
  generalize store.applyEdits id version edits = result at hends ⊢
  cases hends with
  | empty hnone => exact applyEditsBy_of_empty writer store id version hnone
  | stale hsome hcurrent => exact applyEditsBy_of_stale writer hsome hcurrent
  | misfit hsome hcurrent hmisfit => exact applyEditsBy_of_misfit writer hsome hcurrent hmisfit
  | unwritten hsome hcurrent hgroups hchanged hwritten =>
      obtain ⟨disk, -, hdone⟩ := hwrites.writeBack hhonest hcurrent hgroups hchanged
      cases hwritten.symm.trans hdone
  | published hsome hcurrent hgroups hchanged hwritten =>
      obtain ⟨disk, hby, hdone⟩ := hwrites.writeBack hhonest hcurrent hgroups hchanged
      obtain rfl := (Prod.mk.inj (hwritten.symm.trans hdone)).2
      rw [applyEditsBy_of_edited writer hsome hcurrent hgroups hchanged, hby]

end Store

/-! ### Calm runs -/

/-- Whether edits were made. -/
def Event.madeEdits : Event → Bool
  | .edited _ _ _ (.ok _) => true
  | _ => false

/-- Edits were made after a load was prepared. -/
def EditedSince (events : List Event) (load : Snapshot) : Prop :=
  ∃ before after, events = before ++ .prepared load :: after ∧ ∃ event ∈ after, event.madeEdits = true

/-- A load was committed after edits had been made since its preparation. -/
def Overtaken (events : List Event) (id : Nat) : Prop :=
  ∃ before middle after load, events = before ++ .prepared load :: middle ++ .loaded load :: after ∧
    load.id = id ∧ ∃ event ∈ middle, event.madeEdits = true

/-- A document that changed after the load with the given number, or any document if that load was not
overtaken. -/
def Reliable (events : List Event) (id : Nat) (document : Document) : Prop :=
  0 < document.version ∨ ¬ Overtaken events id

/-- A step does not touch the disk, and what it loads has no links below its root. -/
def Event.IsCalm (disk : Disk) : Event → Prop
  | .disturbed | .edited .. => False
  | .prepared snapshot => disk.NoLinksBelow snapshot.root
  | _ => True

/-- A step of the clients, who alone change the disk: by edits, in any way to write a file, as long as no
write is refused. -/
inductive World.CalmStep (engine : Engine) (world : World) : Event → World → Prop where
  | applyEdits (writer : FileWriter) (id version : Nat) (edits : List DocumentEdit) :
      FileWriter.Honest writer → world.store.WritesSucceed writer id version edits →
      CalmStep engine world
        (.edited id version edits
          (Store.publication (world.store.applyEditsBy writer id version edits)))
        { world with store := (world.store.applyEditsBy writer id version edits).2 }
  | other {event : Event} {next : World} : Step engine world event next →
      event.IsCalm world.store.disk → CalmStep engine world event next

theorem World.CalmStep.step {engine : Engine} {world next : World} {event : Event}
    (h : CalmStep engine world event next) : Step engine world event next := by
  cases h with
  | applyEdits writer id version edits hhonest hwrites =>
      rw [Store.applyEditsBy_of_honest hhonest hwrites]
      exact .applyEdits world id version edits
  | other hstep => exact hstep

theorem World.CalmStep.ne_disturbed {engine : Engine} {world next : World} {event : Event}
    (h : CalmStep engine world event next) : event ≠ .disturbed := by
  rintro rfl
  cases h with
  | other _ hcalm => exact hcalm

theorem World.CalmStep.noLinksBelow {engine : Engine} {world next : World} {snapshot : Snapshot}
    (h : CalmStep engine world (.prepared snapshot) next) :
    world.store.disk.NoLinksBelow snapshot.root := by
  cases h with
  | other _ hcalm => exact hcalm

theorem EditedSince.snoc {events : List Event} {load : Snapshot} (h : EditedSince events load)
    (event : Event) : EditedSince (events ++ [event]) load := by
  obtain ⟨before, after, rfl, other, hmem, hother⟩ := h
  exact ⟨before, after ++ [event], by simp, other, List.mem_append_left _ hmem, hother⟩

theorem Overtaken.snoc {events : List Event} {id : Nat} (h : Overtaken events id) (event : Event) :
    Overtaken (events ++ [event]) id := by
  obtain ⟨before, middle, after, load, rfl, hid, hedits⟩ := h
  exact ⟨before, middle, after ++ [event], load, by simp, hid, hedits⟩

theorem Reliable.of_snoc {events : List Event} {id : Nat} {document : Document} {event : Event}
    (h : Reliable (events ++ [event]) id document) : Reliable events id document :=
  h.imp_right fun hintime hlate => hintime (hlate.snoc event)

theorem EditedSince.overtaken {events : List Event} {load : Snapshot} (h : EditedSince events load) :
    Overtaken (events ++ [.loaded load]) load.id := by
  obtain ⟨before, after, rfl, hedits⟩ := h
  exact ⟨before, after, [], load, rfl, rfl, hedits⟩

theorem editedSince_of_mem {events : List Event} {load : Snapshot} {event : Event}
    (hmem : .prepared load ∈ events) (hevent : event.madeEdits = true) :
    EditedSince (events ++ [event]) load := by
  obtain ⟨before, after, rfl⟩ := List.append_of_mem hmem
  exact ⟨before, after ++ [event], by simp, event, by simp, hevent⟩

/-- A snapshot whose documents all have files, below a root without links. -/
structure Snapshot.Standing (snapshot : Snapshot) (disk : Disk) : Prop where
  present : snapshot.Present disk
  unlinked : disk.NoLinksBelow snapshot.root

theorem Snapshot.Standing.of_sameTree {snapshot : Snapshot} {disk other : Disk}
    (h : snapshot.Standing disk) (hsame : SameTree disk other) : snapshot.Standing other :=
  ⟨h.present.of_sameTree hsame, hsame.noLinksBelow h.unlinked⟩

/-- What a world without disturbances looks like. Every snapshot that is or may be published stands on
the disk. The published one is coherent as far as its documents are reliable, and so is a sync as long as
its base is published; a prepared load is coherent until edits are made. -/
structure Settled (events : List Event) (world : World) : Prop where
  order : InOrder events world
  filed : world.AllFiled
  standing : ∀ snapshot, world.Holds snapshot → snapshot.Standing world.store.disk
  announced : ∀ pending ∈ world.loads, .prepared pending.snapshot ∈ events
  unchanged : ∀ pending ∈ world.loads, ∀ document ∈ pending.snapshot.allDocuments,
    document.version = 0
  current : ∀ snapshot, world.store.published = some snapshot →
    snapshot.Coherent world.store.disk (Reliable events snapshot.id)
  loads : ∀ pending ∈ world.loads, ¬ EditedSince events pending.snapshot →
    pending.snapshot.Coherent world.store.disk fun _ => True
  syncs : ∀ pending ∈ world.syncs, ∀ successor, pending.successor = some successor →
    world.store.published = some pending.base →
    successor.Coherent world.store.disk (Reliable events pending.base.id)

namespace Settled

variable {engine : Engine} {events : List Event} {world next : World} {event : Event}

theorem initial (disk : Disk) (now : String) : Settled [] (World.initial disk now) where
  order := InOrder.initial disk now
  filed := AllFiled.initial disk now
  standing snapshot hholds := by
    rcases hholds with hpublished | ⟨_, hmem, -⟩ | ⟨_, hmem, -⟩
    · cases hpublished
    · cases hmem
    · cases hmem
  announced _ hmem := by cases hmem
  unchanged _ hmem := by cases hmem
  current _ hpublished := by cases hpublished
  loads _ hmem := by cases hmem
  syncs _ hmem := by cases hmem

/-- A step that leaves the disk and the published snapshot alone keeps all of this. -/
theorem quiet (h : Settled events world) (horder : InOrder (events ++ [event]) next)
    (hdisk : next.store.disk = world.store.disk)
    (hpublished : next.store.published = world.store.published)
    (hloads : next.loads = world.loads) (hsyncs : next.syncs ⊆ world.syncs) :
    Settled (events ++ [event]) next where
  order := horder
  filed snapshot hholds :=
    h.filed snapshot (hholds.of_fewer world hpublished (hloads ▸ List.Subset.refl _) hsyncs)
  standing snapshot hholds := by
    rw [hdisk]
    exact h.standing snapshot (hholds.of_fewer world hpublished (hloads ▸ List.Subset.refl _) hsyncs)
  announced pending hmem := List.mem_append_left _ (h.announced pending (hloads ▸ hmem))
  unchanged pending hmem := h.unchanged pending (hloads ▸ hmem)
  current snapshot hsnapshot := by
    rw [hdisk]
    exact (h.current snapshot (hpublished ▸ hsnapshot)).mono fun _ => Reliable.of_snoc
  loads pending hmem hunedited := by
    rw [hdisk]
    exact h.loads pending (hloads ▸ hmem) fun hedited => hunedited (hedited.snoc event)
  syncs pending hmem successor hsuccessor hbase := by
    rw [hdisk]
    exact (h.syncs pending (hsyncs hmem) successor hsuccessor (hpublished ▸ hbase)).mono
      fun _ => Reliable.of_snoc

/-- A publication keeps all of this, given what it has to show for itself. No sync is based on it yet,
since all bases have been published before. -/
theorem publish (h : Settled events world) (horder : InOrder (events ++ [event]) next)
    {snapshot : Snapshot} (hevent : event.publication? = some snapshot)
    (hpublished : next.store.published = some snapshot)
    (hsame : SameTree world.store.disk next.store.disk) (hfewer : next.loads ⊆ world.loads)
    (hsyncs : next.syncs ⊆ world.syncs) (hfiled : Filed snapshot.documents)
    (hstanding : snapshot.Standing next.store.disk)
    (hcoherent : snapshot.Coherent next.store.disk (Reliable (events ++ [event]) snapshot.id))
    (hloads : ∀ pending ∈ next.loads, ¬ EditedSince (events ++ [event]) pending.snapshot →
      pending.snapshot.Coherent next.store.disk fun _ => True) :
    Settled (events ++ [event]) next := by
  have hnew : snapshot ∉ publications events := by
    have hdistinct := horder.distinct
    rw [publications_snoc_of_some events hevent, List.map_append, List.nodup_append] at hdistinct
    exact fun hmem => hdistinct.2.2 _ (List.mem_map_of_mem hmem) _ (List.mem_singleton_self _) rfl
  have hholds : ∀ other, next.Holds other → other = snapshot ∨ world.Holds other :=
    fun other hother => hother.of_publish world hpublished hfewer hsyncs
  refine ⟨horder, ?_, ?_, ?_, ?_, ?_, hloads, ?_⟩
  · intro other hother
    rcases hholds other hother with rfl | hheld
    · exact hfiled
    · exact h.filed other hheld
  · intro other hother
    rcases hholds other hother with rfl | hheld
    · exact hstanding
    · exact (h.standing other hheld).of_sameTree hsame
  · exact fun pending hmem => List.mem_append_left _ (h.announced pending (hfewer hmem))
  · exact fun pending hmem => h.unchanged pending (hfewer hmem)
  · intro other hother
    obtain rfl := Option.some.inj (hpublished.symm.trans hother)
    exact hcoherent
  · intro pending hmem successor hsuccessor hbase
    obtain rfl := Option.some.inj (hpublished.symm.trans hbase)
    exact absurd (h.order.based pending (hsyncs hmem)).1 hnew

theorem prepareLoad (h : Settled events world) {id : Nat} {descriptor : String}
    {pending : PendingLoad} (hfresh : id ∉ world.drawn)
    (hprepare : world.store.prepareLoad engine id descriptor = .done pending)
    (hfree : world.store.disk.NoLinksBelow pending.snapshot.root) :
    Settled (events ++ [.prepared pending.snapshot])
      { world with loads := pending :: world.loads, drawn := id :: world.drawn } := by
  obtain ⟨-, hdocuments⟩ := (Store.loadOf_of_prepareLoad hprepare).documents_on_disk
  have hquiet : Settled (events ++ [.prepared pending.snapshot]) world :=
    h.quiet (h.order.quiet rfl rfl rfl rfl (List.Subset.refl _)) rfl rfl rfl (List.Subset.refl _)
  refine { hquiet with
    order := h.order.prepareLoad hfresh hprepare
    filed := h.filed.step (.prepareLoad hfresh hprepare)
    standing := ?_, announced := ?_, unchanged := ?_, loads := ?_ }
  · rintro snapshot (hpublished | ⟨other, hmem, rfl⟩ | hsync)
    · exact h.standing snapshot (.inl hpublished)
    · rcases List.mem_cons.mp hmem with rfl | hmem
      · exact ⟨fun document hmem => ⟨_, (hdocuments document hmem).2⟩, hfree⟩
      · exact h.standing _ (.inr (.inl ⟨other, hmem, rfl⟩))
    · exact h.standing snapshot (.inr (.inr hsync))
  · intro other hmem
    rcases List.mem_cons.mp hmem with rfl | hmem
    · exact List.mem_append_right _ List.mem_cons_self
    · exact hquiet.announced other hmem
  · intro other hmem document hdocument
    rcases List.mem_cons.mp hmem with rfl | hmem
    · exact (hdocuments document hdocument).1
    · exact h.unchanged other hmem document hdocument
  · intro other hmem hunedited
    rcases List.mem_cons.mp hmem with rfl | hmem
    · exact fun document hdocument _ => (hdocuments document hdocument).2
    · exact hquiet.loads other hmem hunedited

theorem prepareSync (h : Settled events world) {paths : Option (List String)}
    {pending : PendingSync} (hprepare : world.store.prepareSync engine paths = .done pending) :
    Settled (events ++ [.idle]) { world with syncs := pending :: world.syncs } := by
  obtain ⟨hbase, hsync⟩ := Store.syncOf_of_prepareSync hprepare
  have hfiled := h.filed _ (.inl hbase)
  have hstanding := h.standing _ (.inl hbase)
  have hquiet : Settled (events ++ [.idle]) world :=
    h.quiet (h.order.quiet rfl rfl rfl rfl (List.Subset.refl _)) rfl rfl rfl (List.Subset.refl _)
  refine { hquiet with
    order := h.order.prepareSync hprepare
    filed := h.filed.step (.prepareSync hprepare)
    standing := ?_, syncs := ?_ }
  · rintro snapshot (hpublished | hload | ⟨other, hmem, hsuccessor⟩)
    · exact h.standing snapshot (.inl hpublished)
    · exact h.standing snapshot (.inr (.inl hload))
    · rcases List.mem_cons.mp hmem with rfl | hmem
      · have hof := hsync snapshot hsuccessor
        refine ⟨hof.present hfiled hstanding.present, ?_⟩
        rw [hof.root_eq]
        exact hstanding.unlinked
      · exact h.standing snapshot (.inr (.inr ⟨other, hmem, hsuccessor⟩))
  · intro other hmem successor hsuccessor hcurrent
    rcases List.mem_cons.mp hmem with rfl | hmem
    · exact (hsync successor hsuccessor).coherent hfiled (hquiet.current _ hbase)
    · exact hquiet.syncs other hmem successor hsuccessor hcurrent

theorem commitLoad (h : Settled events world) {pending : PendingLoad}
    (hmem : pending ∈ world.loads) :
    Settled (events ++ [.loaded pending.snapshot])
      { world with
        store := (world.store.commitLoad pending).2
        loads := world.loads.erase pending } := by
  have hheld : world.Holds pending.snapshot := .inr (.inl ⟨pending, hmem, rfl⟩)
  refine h.publish (h.order.load hmem) rfl rfl (SameTree.refl _) List.erase_subset
    (List.Subset.refl _) (h.filed _ hheld) (h.standing _ hheld) ?_ ?_
  · intro document hdocument hreliable
    have hzero := h.unchanged pending hmem document hdocument
    have hintime := hreliable.resolve_left (by omega)
    exact h.loads pending hmem (fun hedited => hintime hedited.overtaken) document hdocument trivial
  · exact fun other hother hunedited => h.loads other (List.erase_subset hother)
      fun hedited => hunedited (hedited.snoc _)

theorem commitSync (h : Settled events world) {pending : PendingSync} {successor : Snapshot}
    (hmem : pending ∈ world.syncs) (hsuccessor : pending.successor = some successor)
    (horder : InOrder
      (events ++ [.synced pending.base (Store.publication (world.store.commitSync pending))])
      { world with
        store := (world.store.commitSync pending).2
        syncs := world.syncs.erase pending }) :
    Settled (events ++ [.synced pending.base (Store.publication (world.store.commitSync pending))])
      { world with
        store := (world.store.commitSync pending).2
        syncs := world.syncs.erase pending } := by
  rcases world.store.commitSync_cases hsuccessor with
    ⟨old, hold, hid, hversion, hcommit⟩ | ⟨error, -, hcommit⟩
  · -- What is published is the very snapshot that the sync was worked out on.
    obtain ⟨hbase, hkey⟩ := h.order.based pending hmem
    obtain rfl := h.order.eq_of_key_eq hbase (h.order.mem_of_published hold)
      (Prod.ext hid.symm hversion.symm)
    rw [hcommit] at horder ⊢
    have hheld : world.Holds successor := .inr (.inr ⟨pending, hmem, hsuccessor⟩)
    refine h.publish horder rfl rfl (SameTree.refl _) (List.Subset.refl _) List.erase_subset
      (h.filed _ hheld) (h.standing _ hheld) ?_ ?_
    · rw [(hkey successor hsuccessor).1]
      exact (h.syncs pending hmem successor hsuccessor hold).mono fun _ => Reliable.of_snoc
    · exact fun other hother hunedited => h.loads other hother
        fun hedited => hunedited (hedited.snoc _)
  · rw [hcommit] at horder ⊢
    exact h.quiet horder rfl rfl rfl List.erase_subset

theorem applyEdits (h : Settled events world) {id version : Nat} {edits : List DocumentEdit}
    (horder : InOrder
      (events ++
        [.edited id version edits (Store.publication (world.store.applyEdits id version edits))])
      { world with store := (world.store.applyEdits id version edits).2 }) :
    Settled
      (events ++
        [.edited id version edits (Store.publication (world.store.applyEdits id version edits))])
      { world with store := (world.store.applyEdits id version edits).2 } := by
  have hends := world.store.applyEdits_ends id version edits
  generalize world.store.applyEdits id version edits = result at horder hends ⊢
  cases hends with
  | empty | stale | misfit => exact h.quiet horder rfl rfl rfl (List.Subset.refl _)
  | unwritten _ hcurrent hgroups hchanged hwritten =>
      have hpublished := (Store.ensureCurrent_eq_ok.mp hcurrent).1
      have hfiled := h.filed _ (.inl hpublished)
      have hstanding := h.standing _ (.inl hpublished)
      have hrewrites := Store.rewrites_of_edited hfiled (Store.grouped_ascending hgroups) hchanged
      obtain ⟨disk, hdisk, -⟩ := hrewrites.written hfiled hstanding.unlinked hstanding.present
      rw [hdisk] at hwritten
      cases hwritten
  | @published snapshot _ changed disk' _ hcurrent hgroups hchanged hwritten =>
      have hpublished := (Store.ensureCurrent_eq_ok.mp hcurrent).1
      have hfiled := h.filed _ (.inl hpublished)
      have hstanding := h.standing _ (.inl hpublished)
      have hrewrites := Store.rewrites_of_edited hfiled (Store.grouped_ascending hgroups) hchanged
      obtain ⟨disk, hdisk, hsame, hfiled', hpresent, hcoherent⟩ :=
        hrewrites.written hfiled hstanding.unlinked hstanding.present
      rw [hdisk] at hwritten
      obtain rfl := (Prod.mk.inj hwritten).2
      refine h.publish horder rfl rfl hsame (List.Subset.refl _) (List.Subset.refl _)
        hfiled' ⟨hpresent, hsame.noLinksBelow hstanding.unlinked⟩ ?_ ?_
      · exact hcoherent _ ((h.current _ hpublished).mono fun _ => Reliable.of_snoc)
      -- Whatever load is prepared, these edits were made since.
      · exact fun pending hmem hunedited =>
          absurd (editedSince_of_mem (h.announced pending hmem) rfl) hunedited

/-- Every calm step keeps a world settled. -/
theorem step (h : Settled events world) (hstep : CalmStep engine world event next) :
    Settled (events ++ [event]) next := by
  have hcalm := hstep.ne_disturbed
  have hfree : ∀ snapshot, event = .prepared snapshot → world.store.disk.NoLinksBelow snapshot.root := by
    rintro snapshot rfl
    exact hstep.noLinksBelow
  have horder := h.order.step hstep.step
  cases hstep.step with
  | disturb => exact absurd rfl hcalm
  | tick => exact h.quiet horder rfl rfl rfl (List.Subset.refl _)
  | failLoad => exact h.quiet horder rfl rfl rfl (List.Subset.refl _)
  | failSync => exact h.quiet horder rfl rfl rfl (List.Subset.refl _)
  | commitUnchanged _ hnone =>
      have hstore : ∀ pending : PendingSync, pending.successor = none →
          (world.store.commitSync pending).2 = world.store := by
        intro pending hnone
        rw [Store.commitSync, hnone]
      refine h.quiet horder ?_ ?_ rfl List.erase_subset
      · dsimp only
        rw [hstore _ hnone]
      · dsimp only
        rw [hstore _ hnone]
  | prepareLoad hfresh hprepare => exact h.prepareLoad hfresh hprepare (hfree _ rfl)
  | prepareSync hprepare => exact h.prepareSync hprepare
  | commitLoad hmem => exact h.commitLoad hmem
  | commitSync hmem hsuccessor => exact h.commitSync hmem hsuccessor horder
  | applyEdits => exact h.applyEdits horder

end Settled

theorem noLinksBelow_soloDisk (text root : String) : (soloDisk text).NoLinksBelow root := by
  intro place _ _ name rest target hkind
  obtain ⟨entry, hentry, hlink⟩ := Option.map_eq_some_iff.mp hkind
  obtain ⟨first, others, hplace⟩ : ∃ first others, place ++ name :: rest = first :: others :=
    List.exists_cons_of_ne_nil (by simp)
  -- Below the root stands nothing but the file.
  rw [hplace, soloDisk, Entry.find?, Entry.child?] at hentry
  split at hentry
  · rename_i child hchild
    split at hchild
    · obtain rfl := Option.some.inj hchild
      cases others with
      | nil =>
          obtain rfl := Option.some.inj hentry
          cases hlink
      | cons => cases hentry
    · cases hchild
  · cases hentry

/-- A writer that has room for so many bytes in a file. What does not fit leaves an empty file behind. -/
def cappedWriter (room : Nat) : FileWriter := fun disk path content =>
  if content.size ≤ room then wholeWriter disk path content
  else (.error "No space left on device (os error 28)", disk.written path .empty)

theorem honest_cappedWriter (room : Nat) : FileWriter.Honest (cappedWriter room) := by
  intro disk path content after h
  rw [cappedWriter] at h
  split at h
  · exact honest_wholeWriter disk path content after h
  · cases (Prod.mk.inj h).1

section

variable (loads : List PendingLoad) (drawn : List Nat)

theorem applyEdits_insertion :
    Document.applyEdits ⟨"a", "x", 0⟩ [.insert ⟨0, 0⟩ "y"] 1 = .ok ⟨"a", "yx", 1⟩ := by cbv

end

/-- A write that is refused halfway leaves a file unlike the published document, which is still the one
before the edit. -/
theorem half_written_not_coherent :
    FileWriter.Honest (cappedWriter 1) ∧
      (soloWorld "x" (some (soloSnapshot 0 0 "x")) [] [0]).store.applyEditsBy (cappedWriter 1) 0 0
          (soloEdits 0) =
        (.error (.internal "Failed to write a: No space left on device (os error 28)"),
          (soloWorld "" (some (soloSnapshot 0 0 "x")) [] [0]).store) ∧
      (soloDisk "").read "/a" = .ok "".toUTF8 := by
  have hroom : ¬ "yx".toUTF8.size ≤ 1 := by decide
  have hwritten : (soloDisk "x").written (Path.join "/" "a") .empty = soloDisk "" := by
    rw [Disk.written, join_solo, show ByteArray.empty = "".toUTF8 from rfl, write_soloDisk]
  have hby : Store.writeBackBy (cappedWriter 1) (soloSnapshot 0 0 "x").root []
      (soloWorld "x" (some (soloSnapshot 0 0 "x")) [] [0]).store.disk
        [(⟨"a", "x", 0⟩, ⟨"a", "yx", 1⟩)] =
      (.error (.internal "Failed to write a: No space left on device (os error 28)"), soloDisk "") := by
    change Store.writeBackBy (cappedWriter 1) "/" [] (soloDisk "x") _ = _
    rw [Store.writeBackBy, cappedWriter, if_neg hroom, hwritten]
    rfl
  refine ⟨honest_cappedWriter 1, ?_, read_soloDisk ""⟩
  rw [soloEdits, Store.applyEditsBy_of_edited (cappedWriter 1) (by decide)
    (ensureCurrent_solo "x" [] [0] "x") (grouped_solo _ _) (edited_solo "x" applyEdits_insertion), hby]
  rfl

end CodeIntel
