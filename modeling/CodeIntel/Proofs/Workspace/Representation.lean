import CodeIntel.Proofs.Workspace.Filing
import CodeIntel.Proofs.Workspace.History
import Mathlib.Logic.Relation

/-! The shape of a published snapshot. Whatever the engine says, whatever the clients ask for and
whatever happens to the disk, each document stands under its own path, which is a normal form of at
least one name; no document is newer than its snapshot; and each project lists exactly the documents at
or below its folder. A load and a sync describe their projects anew, while edits keep the projects of
their base: they can because they bring and take no path. -/

namespace CodeIntel

open World

/-! ### All that can happen to a workspace -/

theorem Outcome.settled_eq_ok {α : Type} {work : Outcome Error α} {value : α} :
    work.settled = .ok value ↔ work = .done value := by
  cases work <;> simp [Outcome.settled]

/-- One change of a world: a step of a client, whatever number a load may draw, or a load or a sync that
a client makes in one go. -/
inductive World.Move (engine : Engine) : World → World → Prop where
  | step {world next : World} {event : Event} (drawn drawn' : List Nat) :
      Step engine { world with drawn } event { next with drawn := drawn' } → Move engine world next
  | load (world : World) (id : Nat) (descriptor : String) :
      Move engine world { world with store := (world.store.load engine id descriptor).2 }
  | sync (world : World) (paths : Option (List String)) :
      Move engine world { world with store := (world.store.sync engine paths).2 }

/-- The worlds that can come about from one in which nothing was loaded. -/
def World.Reachable (engine : Engine) (world : World) : Prop :=
  ∃ disk now, Relation.ReflTransGen (Move engine) (World.initial disk now) world

theorem World.Reachable.move {engine : Engine} {world next : World} (h : Reachable engine world)
    (hmove : Move engine world next) : Reachable engine next := by
  obtain ⟨disk, now, hmoves⟩ := h
  exact ⟨disk, now, hmoves.tail hmove⟩

/-- What the first load leaves behind can come about. -/
theorem World.Reachable.of_load {engine : Engine} {disk : Disk} {now : String} {id : Nat}
    {descriptor : String} {store : Store}
    (h : ((World.initial disk now).store.load engine id descriptor).2 = store) :
    Reachable engine { store } := by
  have hinitial : Reachable engine (World.initial disk now) := ⟨disk, now, .refl⟩
  have hloaded := hinitial.move (.load _ id descriptor)
  rw [h] at hloaded
  exact hloaded

theorem World.Reachable.of_runs {engine : Engine} {disk : Disk} {now : String} {events : List Event}
    {final : World} (hrun : Runs (Step engine) (World.initial disk now) events final) :
    Reachable engine final := by
  induction hrun with
  | nil => exact ⟨disk, now, .refl⟩
  | snoc _ hstep ih => exact ih.move (.step _ _ hstep)

section

variable {engine : Engine} {holds : World → Prop} {world next : World}
  (hstep : ∀ world event next, holds world → Step engine world event next → holds next)
  (hdrawn : ∀ world drawn, holds world → holds { world with drawn })

include hstep

theorem World.holds_sync (h : holds world) (paths : Option (List String)) :
    holds { world with store := (world.store.sync engine paths).2 } := by
  rw [Store.sync]
  cases hsettled : (world.store.prepareSync engine paths).settled with
  | error error => exact h
  | ok pending =>
      have hprepare := Outcome.settled_eq_ok.mp hsettled
      have hprepared := hstep _ _ _ h (.prepareSync hprepare)
      have hcommitted : holds
          { world with
            store := (world.store.commitSync pending).2
            syncs := (pending :: world.syncs).erase pending } := by
        cases hsuccessor : pending.successor with
        | none => exact hstep _ _ _ hprepared (.commitUnchanged List.mem_cons_self hsuccessor)
        | some => exact hstep _ _ _ hprepared (.commitSync List.mem_cons_self hsuccessor)
      rw [List.erase_cons_head] at hcommitted
      exact hcommitted

include hdrawn

/-- What every step keeps and the numbers of loads do not touch is kept by a load in one go: it is a
preparation and its commit. -/
theorem World.holds_load (h : holds world) (id : Nat) (descriptor : String) :
    holds { world with store := (world.store.load engine id descriptor).2 } := by
  rw [Store.load]
  cases hsettled : (world.store.prepareLoad engine id descriptor).settled with
  | error error => exact h
  | ok pending =>
      have hprepare := Outcome.settled_eq_ok.mp hsettled
      have hprepared := hstep _ _ _ (hdrawn world [] h) (.prepareLoad List.not_mem_nil hprepare)
      have hcommitted := hstep _ _ _ hprepared (.commitLoad List.mem_cons_self)
      rw [List.erase_cons_head] at hcommitted
      exact hdrawn _ world.drawn hcommitted

/-- What holds at first, and is kept so, holds in every world that can come about. -/
theorem World.Reachable.invariant (hinitial : ∀ disk now, holds (World.initial disk now))
    (h : Reachable engine world) : holds world := by
  obtain ⟨disk, now, hmoves⟩ := h
  induction hmoves with
  | refl => exact hinitial disk now
  | @tail _ next _ hmove ih =>
      cases hmove with
      | step drawn drawn' hmade =>
          have hnext := hstep _ _ _ (hdrawn _ drawn ih) hmade
          exact hdrawn { next with drawn := drawn' } next.drawn hnext
      | load id descriptor => exact holds_load hstep hdrawn ih id descriptor
      | sync paths => exact holds_sync hstep ih paths

end

/-! ### What a snapshot is made of -/

/-- A snapshot whose parts fit each other. -/
structure Snapshot.WellFormed (snapshot : Snapshot) : Prop where
  filed : Filed snapshot.documents
  versions : ∀ entry ∈ snapshot.documents, entry.2.version ≤ snapshot.version
  projects : ∀ project ∈ snapshot.projects,
    project.documents = snapshot.documents.keys.filter project.contains

theorem Solution.documents_of_describe {disk : Disk} {solution : Solution} {documents : Keyed Document}
    {projects : List Project} (h : solution.describe disk documents = .ok projects) :
    ∀ project ∈ projects, project.documents = documents.keys.filter project.contains := by
  intro project hmem
  obtain ⟨model, -, hmodel⟩ := exists_of_mem_mapM h hmem
  obtain ⟨normal, -, hmodel⟩ := bind_eq_ok.mp hmodel
  obtain rfl := Except.ok.inj hmodel
  rfl

theorem Change.mem_applyTo {documents : Keyed Document} {version : Nat} {path : String}
    {change : Change} {entry : String × Document} (h : entry ∈ change.applyTo documents version path) :
    entry ∈ documents ∨ entry.2.version = version := by
  cases change with
  | none => exact .inl h
  | removed => exact .inl (Keyed.mem_erase.mp h).2
  | added text | updated text =>
      rcases Keyed.mem_of_mem_insert h with ⟨-, hdocument⟩ | hmem
      · exact .inr (by rw [hdocument])
      · exact .inl hmem

namespace Store

/-- What a sync puts in is as of its own version, and the rest is as it was. -/
theorem SyncOf.mem_or_version_eq {engine : Engine} {store : Store} {base successor : Snapshot}
    (h : SyncOf engine store base successor) :
    ∀ entry ∈ successor.documents,
      entry ∈ base.documents ∨ entry.2.version = successor.version := by
  obtain ⟨solution, members, paths, start, report, -, -, hsync, -⟩ := h.found
  rw [h.version_eq]
  refine foldlM_invariant (fun sofar : Keyed Document × SyncReport => ∀ entry ∈ sofar.1,
    entry ∈ base.documents ∨ entry.2.version = base.version + 1) ?_
    (fun entry hmem => .inl hmem) hsync
  intro sofar path next _ hsofar hnext entry hmem
  unfold syncPath at hnext
  dsimp only at hnext
  split at hnext
  · obtain rfl := Except.ok.inj hnext
    exact hsofar entry hmem
  · obtain ⟨onDisk, -, hnext⟩ := bind_eq_ok.mp hnext
    obtain rfl := Except.ok.inj hnext
    rcases Change.mem_applyTo hmem with hmem | hnew
    · exact hsofar entry hmem
    · exact .inr hnew

theorem LoadOf.wellFormed {engine : Engine} {store : Store} {id : Nat} {descriptor : String}
    {snapshot : Snapshot} (h : LoadOf engine store id descriptor snapshot) : snapshot.WellFormed := by
  obtain ⟨hfiled, hdocuments⟩ := h.documents_on_disk
  obtain ⟨solution, members, -, -, -, hprojects, -⟩ := h.found
  refine ⟨hfiled, fun entry hmem => ?_, Solution.documents_of_describe hprojects⟩
  rw [(hdocuments _ (List.mem_map_of_mem hmem)).1]
  exact Nat.zero_le _

theorem SyncOf.wellFormed {engine : Engine} {store : Store} {base successor : Snapshot}
    (h : SyncOf engine store base successor) (hbase : base.WellFormed) : successor.WellFormed := by
  obtain ⟨solution, members, paths, start, report, -, -, -, hprojects⟩ := h.found
  refine ⟨(h.syncedSofar hbase.filed).1, fun entry hmem => ?_,
    Solution.documents_of_describe hprojects⟩
  rcases h.mem_or_version_eq entry hmem with hkept | hnew
  · have hle := hbase.versions entry hkept
    rw [h.version_eq]
    omega
  · exact Nat.le_of_eq hnew

/-- Edits keep the paths of all documents, so that the projects of the base still list them. -/
theorem wellFormed_successorOf (store : Store) {base : Snapshot} {groups : Keyed (List TextEdit)}
    {changed : List (Document × Document)} (hbase : base.WellFormed) (hgroups : groups.Ascending)
    (hchanged : edited base groups = .ok changed) : (successorOf store base changed).WellFormed := by
  have hrewrites := rewrites_of_edited hbase.filed hgroups hchanged
  have hkeys := hrewrites.keys_replaced hbase.filed.ascending
  refine ⟨filed_replaced hbase.filed fun pair hmem => hrewrites.isKey hbase.filed hmem, ?_, ?_⟩
  · rintro ⟨key, document⟩ hmem
    rw [successorOf, mem_replaced hbase.filed.ascending hrewrites.distinct] at hmem
    rcases hmem with ⟨pair, hpair, rfl, -⟩ | ⟨-, hkept⟩
    · obtain ⟨entry, -, -, happly⟩ := exists_of_mem_edited hchanged hpair
      exact Nat.le_of_eq (Document.applyEdits_path happly).2
    · exact Nat.le_succ_of_le (hbase.versions _ hkept)
  · intro project hmem
    change project.documents = (replaced base.documents changed).keys.filter project.contains
    rw [hkeys]
    exact hbase.projects project hmem

end Store

/-- All snapshots that are published or may be are well-formed. -/
def World.AllWellFormed (world : World) : Prop :=
  ∀ snapshot, world.Holds snapshot → snapshot.WellFormed

theorem World.AllWellFormed.initial (disk : Disk) (now : String) :
    (World.initial disk now).AllWellFormed := by
  rintro snapshot (hpublished | ⟨_, hmem, -⟩ | ⟨_, hmem, -⟩)
  · cases hpublished
  · cases hmem
  · cases hmem

theorem World.AllWellFormed.step {engine : Engine} {world next : World} {event : Event}
    (h : world.AllWellFormed) (hstep : Step engine world event next) : next.AllWellFormed := by
  intro snapshot hholds
  cases hstep.origin hholds with
  | held hheld => exact h snapshot hheld
  | load hload => exact hload.wellFormed
  | sync hbase hsync => exact hsync.wellFormed (h _ (.inl hbase))
  | edits hbase hgroups hchanged hsnapshot =>
      rw [hsnapshot]
      exact Store.wellFormed_successorOf world.store (h _ (.inl hbase)) hgroups hchanged

theorem World.Reachable.wellFormed {engine : Engine} {world : World} {snapshot : Snapshot}
    (h : Reachable engine world) (hpublished : world.store.published = some snapshot) :
    snapshot.WellFormed := by
  have hall : world.AllWellFormed :=
    h.invariant (fun _ _ _ hall hstep => hall.step hstep) (fun _ _ hall => hall) AllWellFormed.initial
  exact hall snapshot (.inl hpublished)

/-- Cutting the path of a document gives names only. -/
theorem Disk.IsKey.segments {key : String} (h : IsKey key) :
    key ≠ "" ∧ ∀ segment ∈ Path.segments key, segment ≠ "" ∧ segment ≠ "." ∧ segment ≠ ".." := by
  obtain ⟨names, hne, hnames, rfl⟩ := h
  have hsegments := Path.segments_ofRelative hne hnames
  constructor
  · intro hempty
    rw [hempty] at hsegments
    have hmem : "" ∈ names := hsegments ▸ by decide
    exact (hnames "" hmem).1 rfl
  · intro segment hmem
    rw [hsegments] at hmem
    obtain ⟨hname, hhere, hup, -⟩ := hnames segment hmem
    exact ⟨hname, hhere, hup⟩

/-- In every world that can come about, the documents of the published snapshot stand in ascending order
under their own paths, which are normal forms of at least one name; none is newer than the snapshot; and
each project lists exactly the documents that belong to it, in that order. -/
theorem published_fits_together {engine : Engine} {world : World} {snapshot : Snapshot}
    (hreachable : Reachable engine world) (hpublished : world.store.published = some snapshot) :
    snapshot.documents.keys.Pairwise (· < ·) ∧
    (∀ key document, (key, document) ∈ snapshot.documents → document.path = key ∧ key ≠ "" ∧
      ∀ segment ∈ Path.segments key, segment ≠ "" ∧ segment ≠ "." ∧ segment ≠ "..") ∧
    (∀ document ∈ snapshot.allDocuments, document.version ≤ snapshot.version) ∧
    ∀ project ∈ snapshot.projects,
      project.documents = snapshot.documents.keys.filter project.contains := by
  have hwell := hreachable.wellFormed hpublished
  refine ⟨List.pairwise_map.mpr hwell.filed.ascending, ?_, ?_, hwell.projects⟩
  · intro key document hmem
    obtain ⟨hpath, hkey⟩ := hwell.filed.named key document hmem
    exact ⟨hpath, hkey.segments⟩
  · intro document hmem
    obtain ⟨entry, hentry, rfl⟩ := List.mem_map.mp hmem
    exact hwell.versions entry hentry

/-- After the file of the small workspace was loaded and edited, its document is as of the new version
and its project lists it as before. -/
theorem soloEvents_fit_together :
    (∀ document ∈ (soloSnapshot 0 1 "yx").allDocuments, document.version ≤ 1) ∧
    ∀ project ∈ (soloSnapshot 0 1 "yx").projects,
      project.documents = (soloSnapshot 0 1 "yx").documents.keys.filter project.contains := by
  obtain ⟨-, -, hversions, hprojects⟩ :=
    published_fits_together (Reachable.of_runs runs_soloEvents) rfl
  exact ⟨hversions, hprojects⟩

end CodeIntel
