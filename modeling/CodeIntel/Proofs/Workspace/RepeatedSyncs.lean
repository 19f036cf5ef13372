import CodeIntel.Proofs.Workspace.Agreement
import CodeIntel.Proofs.Workspace.Reloading

/-! Syncs one after another. What a sync makes of a path depends on the disk alone once the path is looked
at, and a path that was looked at has nothing to be done a second time. So a series of syncs ends where any
other ends that looks at the same paths, in whatever order, however often and under whatever spellings;
only the number of versions that it publishes is its own. -/

namespace CodeIntel

open World

/-- The text of the document under a path. -/
def Snapshot.text? (snapshot : Snapshot) (key : String) : Option String :=
  (snapshot.document? key).map Document.text

/-- The text that a sync gives the path of a document: that of its file, if it is a source file of the
solution. -/
def Disk.sourceText? (disk : Disk) (root : String) (members : List String) (key : String) :
    Option String :=
  if key ∈ members then (disk.documentAt? root key).map Document.text else none

/-- One of the given paths has this normal form. -/
def Disk.Spells (disk : Disk) (root : String) (paths : List String) (key : String) : Prop :=
  ∃ given ∈ paths, disk.normal? root given = some key

/-- Whether projects can be described does not depend on the documents. -/
theorem Solution.exists_describe {disk : Disk} {solution : Solution} {documents : Keyed Document}
    {projects : List Project} (h : solution.describe disk documents = .ok projects)
    (others : Keyed Document) : ∃ projects', solution.describe disk others = .ok projects' := by
  cases hothers : solution.describe disk others with
  | ok projects' => exact ⟨projects', rfl⟩
  | error error =>
      obtain ⟨model, hmem, herror⟩ := exists_of_mapM_eq_error hothers
      obtain ⟨project, hproject, -⟩ := exists_of_mem_of_mapM h hmem
      obtain ⟨normal, hnormal, -⟩ := bind_eq_ok.mp hproject
      rcases bind_eq_error.mp herror with hrefused | ⟨_, -, hpure⟩
      · rw [hnormal] at hrefused
        cases hrefused
      · cases hpure

theorem Disk.spells_append {disk : Disk} {root : String} {paths others : List String} {key : String} :
    disk.Spells root (paths ++ others) key ↔ disk.Spells root paths key ∨ disk.Spells root others key := by
  simp only [Spells, List.mem_append, or_and_right, exists_or]

namespace Store

variable {engine : Engine} {store after : Store} {disk : Disk} {base next : Snapshot}
  {solution : Solution} {members : List String} {scanned : String → Prop}

/-! ### One path -/

/-- A sync is able to look at a path. -/
def Inspectable (disk : Disk) (base : Snapshot) (members : List String) (key : String) : Prop :=
  ∃ change, finding disk base members key = .ok change

/-- A sync has something to do at a path. -/
def Stale (disk : Disk) (base : Snapshot) (members : List String) (key : String) : Prop :=
  base.text? key ≠ disk.sourceText? base.root members key

section

variable {key : String} {change : Change} (h : Finds disk base members key change)
include h

/-- What a change leaves is the text of the source file. -/
theorem Finds.text_outcome :
    (change.outcome (base.version + 1) key (base.document? key)).map Document.text =
      disk.sourceText? base.root members key := by
  have hmissing : disk.read (Path.join base.root key) = .error .notFound →
      disk.sourceText? base.root members key = none := fun hread => by
    rw [Disk.sourceText?, Disk.documentAt?_of_readSource (Disk.readSource_of_notFound hread), ite_self]
  have hfile : ∀ text : String, key ∈ members →
      disk.read (Path.join base.root key) = .ok text.toUTF8 →
      disk.sourceText? base.root members key = some text := fun text hmember hread => by
    rw [Disk.sourceText?, if_pos hmember,
      Disk.documentAt?_of_readSource (Disk.readSource_of_read hread)]
  cases h with
  | unrelated hnot hnone => rw [Change.outcome, hnone, Disk.sourceText?, if_neg hnot, Option.map_none]
  | expelled hnot _ => rw [Change.outcome, Disk.sourceText?, if_neg hnot, Option.map_none]
  | missing _ hnone hread => rw [Change.outcome, hnone, hmissing hread, Option.map_none]
  | gone _ hread => rw [Change.outcome, hmissing hread, Option.map_none]
  | added hmember _ hread => rw [Change.outcome, hfile _ hmember hread, Option.map_some]
  | updated hmember _ _ hread => rw [Change.outcome, hfile _ hmember hread, Option.map_some]
  | kept hmember hold hread => rw [Change.outcome, hold, hfile _ hmember hread, Option.map_some]

/-- Where a change was made there is none to be made again. -/
theorem Finds.finding_again (hroot : next.root = base.root)
    (hnext : next.document? key = change.outcome (base.version + 1) key (base.document? key)) :
    finding disk next members key = .ok .none := by
  cases h with
  | unrelated hnot hnone => exact finding_of_unrelated hnot (hnext.trans hnone)
  | expelled hnot _ => exact finding_of_unrelated hnot hnext
  | missing _ hnone hread => exact finding_of_missing (hnext.trans hnone) (hroot ▸ hread)
  | gone _ hread => exact finding_of_missing hnext (hroot ▸ hread)
  | added hmember _ hread => exact finding_of_kept hmember hnext (hroot ▸ hread)
  | updated hmember _ _ hread => exact finding_of_kept hmember hnext (hroot ▸ hread)
  | kept hmember hold hread => exact finding_of_kept hmember (hnext.trans hold) (hroot ▸ hread)

/-- What has to be done shows in the text. -/
theorem Finds.stale_iff : Stale disk base members key ↔ change ≠ .none := by
  rw [Stale, ← h.text_outcome, Snapshot.text?]
  cases h with
  | unrelated | missing | kept => simp [Change.outcome]
  | gone hold _ => simp [Change.outcome, hold]
  | expelled _ hold => simp [Change.outcome, hold]
  | added _ hnone _ => simp [Change.outcome, hnone]
  | updated _ hold htext _ => simpa [Change.outcome, hold] using htext

end

/-- A sync counts something exactly if it has something to do at one of its paths. -/
theorem totalSynced_ne_zero_iff {paths : Option (List String)}
    (hinspectable : ∀ key, Scanned disk base members paths key → Inspectable disk base members key) :
    (scan disk base members paths).2.summed.totalSynced ≠ 0 ↔
      ∃ key, Scanned disk base members paths key ∧ Stale disk base members key := by
  constructor
  · intro hsome
    by_contra hnone
    refine hsome ?_
    rw [scan, afterChanges_of_none fun key hmem => ?_]
    · rfl
    · have hscanned := mem_syncScope.mp hmem
      obtain ⟨change, hchange⟩ := hinspectable key hscanned
      rw [found_of_finding hchange]
      by_contra hne
      exact hnone ⟨key, hscanned, (finds_of_finding hchange).stale_iff.mpr hne⟩
  · rintro ⟨key, hscanned, hstale⟩ hzero
    obtain ⟨change, hchange⟩ := hinspectable key hscanned
    refine (finds_of_finding hchange).stale_iff.mp hstale ?_
    rw [← found_of_finding hchange]
    exact found_of_totalSynced_eq_zero hzero key (mem_syncScope.mpr hscanned)

/-! ### The same sync again -/

theorem scanned_of_scanned_again (hroot : next.root = base.root) {paths : Option (List String)}
    (hfindings : ∀ path, Scanned disk base members paths path →
      ∃ change, finding disk base members path = .ok change)
    (hnext : next.documents = (scan disk base members paths).1) {key : String}
    (h : Scanned disk next members paths key) : Scanned disk base members paths key := by
  have hall : (key ∈ members ∨ ∃ document, next.document? key = some document) →
      (∀ other, Scanned disk base members paths other ↔
        (other ∈ members ∨ ∃ document, base.document? other = some document)) →
      Scanned disk base members paths key := by
    rintro (hmember | ⟨document, hdocument⟩) hscope
    · exact (hscope key).mpr (.inl hmember)
    · rcases get?_scan hfindings key with ⟨_, hscanned, -⟩ | ⟨-, hget⟩
      · exact hscanned
      · refine (hscope key).mpr (.inr ⟨document, ?_⟩)
        rw [← hget, ← hnext]
        exact hdocument
  rcases paths with _ | _ | ⟨path, paths⟩
  · exact hall h fun _ => Iff.rfl
  · exact hall h fun _ => Iff.rfl
  · exact ⟨h.1, hroot ▸ h.2⟩

/-- After a sync, the same sync finds nothing to do. -/
theorem sync_again {paths : Option (List String)} {report : SyncReport} (now : String)
    (h : store.sync engine paths = (.ok report, after)) :
    ({ after with now } : Store).sync engine paths =
      (.ok ⟨0, 0, 0, 0, report.version⟩, { after with now }) := by
  obtain ⟨base, solution, members, hsurveyed, hresult⟩ := sync_eq_ok.mp h
  -- Whether or not something was published, what is published now has the documents of the scan.
  obtain ⟨next, rfl, hroot, hdescriptor, hdocuments, hversion⟩ : ∃ next : Snapshot,
      after = store.publish next ∧ next.root = base.root ∧ next.descriptor = base.descriptor ∧
        next.documents = (scan store.disk base members paths).1 ∧ report.version = next.version := by
    dsimp only at hresult
    rcases hresult with ⟨hzero, rfl, rfl⟩ | ⟨-, projects, -, rfl, rfl⟩
    · refine ⟨base, ?_, rfl, rfl, (scan_of_totalSynced_eq_zero hzero).symm, version_scan ..⟩
      rw [publish, ← hsurveyed.published]
    · exact ⟨_, rfl, rfl, rfl, rfl, rfl⟩
  have hfindings : ∀ key, Scanned store.disk next members paths key →
      finding store.disk next members key = .ok .none := by
    intro key hscanned
    have hscanned := scanned_of_scanned_again hroot hsurveyed.findings hdocuments hscanned
    obtain ⟨change, -, -, hfinds, hget⟩ :=
      (get?_scan hsurveyed.findings key).resolve_right fun hnot => hnot.1 hscanned
    exact hfinds.finding_again hroot ((congrArg (Keyed.get? · key) hdocuments).trans hget)
  have hscan : scan store.disk next members paths = (next.documents, ⟨0, 0, 0, 0, next.version⟩) :=
    afterChanges_of_none (fun key hmem => found_of_finding (hfindings key (mem_syncScope.mp hmem))) _
  refine sync_eq_ok.mpr ⟨next, solution, members, ⟨rfl, ?_, hsurveyed.listed,
    fun key hscanned => ⟨_, hfindings key hscanned⟩⟩, ?_⟩
  · rw [hdescriptor]
    exact hsurveyed.loaded
  · have hdisk : ({ store.publish next with now } : Store).disk = store.disk := rfl
    rw [hdisk, hscan, hversion]
    exact .inl ⟨rfl, rfl, rfl⟩

/-! ### Syncs in turn -/

/-- What syncs that look at some paths make of a snapshot, on a disk where its descriptor lists the source
files of a solution. -/
structure SyncedTo (disk : Disk) (solution : Solution) (members : List String) (scanned : String → Prop)
    (base next : Snapshot) : Prop where
  root : next.root = base.root
  descriptor : next.descriptor = base.descriptor
  ascending : next.documents.Ascending
  told : ∀ key, scanned key → next.text? key = disk.sourceText? base.root members key
  kept : ∀ key, ¬ scanned key → next.text? key = base.text? key
  projects : next = base ∨
    (solution.describe disk next.documents = .ok next.projects ∧
      ∃ key, scanned key ∧ Stale disk base members key)

theorem SyncedTo.refl (hascending : base.documents.Ascending) :
    SyncedTo disk solution members (fun _ => False) base base :=
  ⟨rfl, rfl, hascending, fun _ => False.elim, fun _ _ => rfl, .inl rfl⟩

/-- Syncs leave nothing to do where they have looked, and what there is elsewhere. -/
theorem SyncedTo.stale_iff (h : SyncedTo disk solution members scanned base next) (key : String) :
    Stale disk next members key ↔ Stale disk base members key ∧ ¬ scanned key := by
  by_cases hscanned : scanned key
  · refine iff_of_false (fun hstale => hstale ?_) fun hstale => hstale.2 hscanned
    rw [h.told key hscanned, h.root]
  · rw [Stale, h.kept key hscanned, h.root, Stale, and_iff_left hscanned]

theorem SyncedTo.trans {middle : Snapshot} {others : String → Prop}
    (h : SyncedTo disk solution members scanned base middle)
    (h' : SyncedTo disk solution members others middle next) :
    SyncedTo disk solution members (fun key => scanned key ∨ others key) base next where
  root := h'.root.trans h.root
  descriptor := h'.descriptor.trans h.descriptor
  ascending := h'.ascending
  told key hscanned := by
    by_cases hothers : others key
    · rw [h'.told key hothers, h.root]
    · rw [h'.kept key hothers, h.told key (hscanned.resolve_right hothers)]
  kept key hnot := by
    rw [h'.kept key fun hothers => hnot (.inr hothers), h.kept key fun hscanned => hnot (.inl hscanned)]
  projects := by
    rcases h'.projects with rfl | ⟨hprojects, key, hothers, hstale⟩
    · exact h.projects.imp_right fun ⟨hprojects, key, hscanned, hstale⟩ =>
        ⟨hprojects, key, .inl hscanned, hstale⟩
    · exact .inr ⟨hprojects, key, .inr hothers, ((h.stale_iff key).mp hstale).1⟩

/-- Syncs that have looked at the same paths have come to the same texts and the same projects. -/
theorem SyncedTo.agree {others : String → Prop} {next' : Snapshot}
    (h : SyncedTo disk solution members scanned base next)
    (h' : SyncedTo disk solution members others base next') (hsame : ∀ key, scanned key ↔ others key) :
    (∀ key, next.text? key = next'.text? key) ∧ next.projects = next'.projects := by
  have htext : ∀ key, next.text? key = next'.text? key := by
    intro key
    by_cases hscanned : scanned key
    · calc next.text? key = disk.sourceText? base.root members key := h.told key hscanned
        _ = next'.text? key := (h'.told key ((hsame key).mp hscanned)).symm
    · calc next.text? key = base.text? key := h.kept key hscanned
        _ = next'.text? key := (h'.kept key fun hothers => hscanned ((hsame key).mpr hothers)).symm
  refine ⟨htext, ?_⟩
  rcases h.projects with rfl | ⟨hprojects, key, hscanned, hchanged⟩
  · rcases h'.projects with rfl | ⟨-, key, hothers, hchanged⟩
    · rfl
    · exact absurd (h.told key ((hsame key).mpr hothers)) hchanged
  · rcases h'.projects with rfl | ⟨hprojects', -⟩
    · exact absurd (h'.told key ((hsame key).mp hscanned)) hchanged
    · have hkeys : next.documents.keys = next'.documents.keys := by
        refine h.ascending.keys_eq h'.ascending fun key => ?_
        have hsome := congrArg Option.isSome (htext key)
        rw [Snapshot.text?, Snapshot.text?, Option.isSome_map, Option.isSome_map] at hsome
        rw [Keyed.mem_keys, Keyed.mem_keys, ← Option.isSome_iff_exists, ← Option.isSome_iff_exists]
        exact iff_of_eq (congrArg (· = true) hsome)
      rw [Solution.describe_congr hkeys, hprojects'] at hprojects
      exact (Except.ok.inj hprojects).symm

/-- A store whose snapshot can be synced: its descriptor can be read, and its source files be listed. -/
structure Syncable (engine : Engine) (disk : Disk) (solution : Solution) (members : List String)
    (store : Store) (base : Snapshot) : Prop where
  onDisk : store.disk = disk
  published : store.published = some base
  ascending : base.documents.Ascending
  loaded : engine.loadSolution disk base.descriptor = .done solution
  listed : solution.memberPaths disk = .ok members

theorem Syncable.atMoment (h : Syncable engine disk solution members store base) (now : String) :
    Syncable engine disk solution members { store with now } base :=
  ⟨h.onDisk, h.published, h.ascending, h.loaded, h.listed⟩

theorem Syncable.sync_eq_ok (h : Syncable engine disk solution members store base)
    {paths : Option (List String)} {report : SyncReport}
    (hsync : store.sync engine paths = (.ok report, after)) :
    (∀ key, Scanned disk base members paths key → Inspectable disk base members key) ∧
      let (documents, counted) := scan disk base members paths
      (counted.summed.totalSynced = 0 ∧ after = store) ∨
        (counted.summed.totalSynced ≠ 0 ∧ ∃ projects, solution.describe disk documents = .ok projects ∧
          after = store.publish (syncedSnapshot store base projects documents)) := by
  obtain ⟨rfl, hpublished, -, hloaded, hlisted⟩ := h
  obtain ⟨_, _, _, hsurveyed, hresult⟩ := Store.sync_eq_ok.mp hsync
  obtain rfl := Option.some.inj (hpublished.symm.trans hsurveyed.published)
  obtain rfl := Outcome.done.inj (hloaded.symm.trans hsurveyed.loaded)
  obtain rfl := Except.ok.inj (hlisted.symm.trans hsurveyed.listed)
  refine ⟨hsurveyed.findings, hresult.imp ?_ ?_⟩
  · rintro ⟨hzero, -, hafter⟩
    exact ⟨hzero, hafter⟩
  · rintro ⟨hsome, projects, hprojects, -, hafter⟩
    exact ⟨hsome, projects, hprojects, hafter⟩

/-- After a sync the store can be synced again, with what the sync has made of its snapshot. -/
theorem Syncable.synced (h : Syncable engine disk solution members store base)
    {paths : Option (List String)} {report : SyncReport}
    (hsync : store.sync engine paths = (.ok report, after)) :
    ∃ next, Syncable engine disk solution members after next ∧
      SyncedTo disk solution members (Scanned disk base members paths) base next := by
  obtain ⟨hinspectable, hresult⟩ := h.sync_eq_ok hsync
  have htold : ∀ key, Scanned disk base members paths key →
      ((scan disk base members paths).1.get? key).map Document.text =
        disk.sourceText? base.root members key := by
    intro key hscanned
    obtain ⟨change, -, -, hfinds, hget⟩ :=
      (get?_scan hinspectable key).resolve_right fun hnot => hnot.1 hscanned
    rw [hget, hfinds.text_outcome]
  have hkept : ∀ key, ¬ Scanned disk base members paths key →
      (scan disk base members paths).1.get? key = base.document? key := fun key hnot =>
    ((get?_scan hinspectable key).resolve_left fun ⟨_, hscanned, _⟩ => hnot hscanned).2
  have hascending : (scan disk base members paths).1.Ascending :=
    ascending_afterChanges h.ascending _ _ _ _
  dsimp only at hresult
  rcases hresult with ⟨hzero, rfl⟩ | ⟨hsome, projects, hprojects, rfl⟩
  · rw [scan_of_totalSynced_eq_zero hzero] at htold
    exact ⟨base, h, rfl, rfl, h.ascending, htold, fun _ _ => rfl, .inl rfl⟩
  · exact ⟨_, ⟨h.onDisk, rfl, hascending, h.loaded, h.listed⟩, rfl, rfl, hascending, htold,
      fun key hnot => congrArg (Option.map Document.text) (hkept key hnot),
      .inr ⟨hprojects, (totalSynced_ne_zero_iff hinspectable).mp hsome⟩⟩

/-- Syncs of some paths each, one after another, at whatever moments. -/
inductive Syncs (engine : Engine) : Store → List (List String) → Store → Prop where
  | nil {store : Store} : Syncs engine store [] store
  | cons {store middle after : Store} {now : String} {paths : List String}
      {others : List (List String)} {report : SyncReport}
      (first : ({ store with now } : Store).sync engine (some paths) = (.ok report, middle))
      (rest : Syncs engine middle others after) : Syncs engine store (paths :: others) after

theorem scanned_some {paths : List String} (hne : paths ≠ []) {key : String} :
    Scanned disk base members (some paths) key ↔ key ≠ "" ∧ disk.Spells base.root paths key := by
  cases paths with
  | nil => exact absurd rfl hne
  | cons path rest => exact Iff.rfl

/-- The paths that syncs in turn look at. -/
def Looked (disk : Disk) (root : String) (groups : List (List String)) (key : String) : Prop :=
  key ≠ "" ∧ disk.Spells root groups.flatten key

theorem looked_cons {paths : List String} (hne : paths ≠ []) {groups : List (List String)} :
    Looked disk base.root (paths :: groups) = fun key =>
      Scanned disk base members (some paths) key ∨ Looked disk base.root groups key := by
  funext key
  rw [scanned_some hne, Looked, List.flatten_cons, Disk.spells_append, and_or_left, Looked]

section

variable {groups others : List (List String)} (hne : ∀ paths ∈ groups, paths ≠ [])
include hne

/-- What a series of syncs makes of a snapshot depends on the paths that it looks at. -/
theorem Syncs.syncedTo (run : Syncs engine store groups after)
    (h : Syncable engine disk solution members store base) :
    ∃ next, after.published = some next ∧
      SyncedTo disk solution members (Looked disk base.root groups) base next := by
  induction run generalizing base with
  | nil =>
      have hnothing : Looked disk base.root [] = fun _ => False := by
        funext key
        simp [Looked, Disk.Spells]
      rw [hnothing]
      exact ⟨base, h.published, .refl h.ascending⟩
  | @cons _ _ _ now _ _ _ first _ ih =>
      obtain ⟨hpaths, hothers⟩ := List.forall_mem_cons.mp hne
      obtain ⟨next, hnext, hfirst⟩ := (h.atMoment now).synced first
      obtain ⟨last, hlast, hrest⟩ := ih hothers hnext
      rw [hfirst.root] at hrest
      rw [looked_cons hpaths]
      exact ⟨last, hlast, hfirst.trans hrest⟩

/-- A series of syncs has come to the same texts and the same projects as any other that looks at the same
paths. -/
theorem Syncs.agree {after' : Store} (run : Syncs engine store groups after)
    (run' : Syncs engine store others after') (hne' : ∀ paths ∈ others, paths ≠ [])
    (h : Syncable engine disk solution members store base)
    (hsame : Looked disk base.root groups = Looked disk base.root others) :
    ∃ next next', after.published = some next ∧ after'.published = some next' ∧
      (∀ key, next.text? key = next'.text? key) ∧ next.projects = next'.projects := by
  obtain ⟨next, hnext, hsynced⟩ := run.syncedTo hne h
  obtain ⟨next', hnext', hsynced'⟩ := run'.syncedTo hne' h
  exact ⟨next, next', hnext, hnext',
    hsynced.agree hsynced' fun key => iff_of_eq (congrFun hsame key)⟩

end

theorem Syncs.exists_syncable {groups : List (List String)} (run : Syncs engine store groups after)
    (hgroups : groups ≠ []) (hpublished : store.published = some base)
    (hascending : base.documents.Ascending) :
    ∃ solution members, Syncable engine store.disk solution members store base := by
  cases run with
  | nil => exact absurd rfl hgroups
  | cons first _ =>
      obtain ⟨_, solution, members, hsurveyed, -⟩ := sync_eq_ok.mp first
      obtain rfl := Option.some.inj (hpublished.symm.trans hsurveyed.published)
      exact ⟨solution, members, rfl, hpublished, hascending, hsurveyed.loaded, hsurveyed.listed⟩

/-! ### Whether they succeed -/

theorem inspectable_iff {key : String} : Inspectable disk base members key ↔
    (key ∉ members ∧ base.text? key = none) ∨
      ∃ onDisk, disk.readSource (Path.join base.root key) = .ok onDisk := by
  rw [Inspectable, finding, Snapshot.text?, Option.map_eq_none_iff]
  by_cases hmember : key ∈ members
  · simp [hmember, map_eq_ok]
  · cases hdocument : base.document? key with
    | none => simp [hmember, show base.documents.get? key = none from hdocument]
    | some document =>
        simp [hmember, show base.documents.get? key = some document from hdocument, map_eq_ok]

theorem SyncedTo.inspectable_iff (h : SyncedTo disk solution members scanned base next)
    (hscanned : ∀ key, scanned key → Inspectable disk base members key) (key : String) :
    Inspectable disk next members key ↔ Inspectable disk base members key := by
  by_cases hold : scanned key
  · refine iff_of_true ?_ (hscanned key hold)
    rw [Store.inspectable_iff, h.told key hold, h.root]
    refine (Store.inspectable_iff.mp (hscanned key hold)).imp_left fun ⟨hnot, _⟩ => ⟨hnot, ?_⟩
    rw [Disk.sourceText?, if_neg hnot]
  · rw [Store.inspectable_iff, Store.inspectable_iff, h.kept key hold, h.root]

/-- A sync is able to look at some paths and, if it has something to do at one of them, to describe the
projects. -/
def Feasible (disk : Disk) (solution : Solution) (members : List String) (scanned : String → Prop)
    (base : Snapshot) : Prop :=
  (∀ key, scanned key → Inspectable disk base members key) ∧
    ((∃ key, scanned key ∧ Stale disk base members key) →
      ∃ projects, solution.describe disk [] = .ok projects)

theorem Feasible.mono {others : String → Prop} (h : Feasible disk solution members others base)
    (hfewer : ∀ key, scanned key → others key) : Feasible disk solution members scanned base :=
  ⟨fun key hkey => h.1 key (hfewer key hkey), fun ⟨key, hkey, hstale⟩ =>
    h.2 ⟨key, hfewer key hkey, hstale⟩⟩

theorem SyncedTo.feasible_iff {others : String → Prop}
    (h : SyncedTo disk solution members scanned base next)
    (hfeasible : Feasible disk solution members scanned base) :
    Feasible disk solution members others next ↔
      Feasible disk solution members (fun key => scanned key ∨ others key) base := by
  obtain ⟨hscanned, hdescribed⟩ := hfeasible
  have hinspectable := h.inspectable_iff hscanned
  constructor
  · rintro ⟨hothers, hdescribed'⟩
    refine ⟨fun key => ?_, ?_⟩
    · rintro (hkey | hkey)
      · exact hscanned key hkey
      · exact (hinspectable key).mp (hothers key hkey)
    · rintro ⟨key, hkey, hstale⟩
      by_cases hold : scanned key
      · exact hdescribed ⟨key, hold, hstale⟩
      · exact hdescribed' ⟨key, hkey.resolve_left hold, (h.stale_iff key).mpr ⟨hstale, hold⟩⟩
  · rintro ⟨hboth, hdescribed'⟩
    refine ⟨fun key hkey => (hinspectable key).mpr (hboth key (.inr hkey)), ?_⟩
    rintro ⟨key, hkey, hstale⟩
    exact hdescribed' ⟨key, .inr hkey, ((h.stale_iff key).mp hstale).1⟩

theorem Syncable.exists_sync_iff (h : Syncable engine disk solution members store base)
    {paths : Option (List String)} :
    (∃ report after, store.sync engine paths = (.ok report, after)) ↔
      Feasible disk solution members (Scanned disk base members paths) base := by
  constructor
  · rintro ⟨report, after, hsync⟩
    obtain ⟨hinspectable, hresult⟩ := h.sync_eq_ok hsync
    refine ⟨hinspectable, fun hstale => ?_⟩
    have hsome := (totalSynced_ne_zero_iff hinspectable).mpr hstale
    obtain ⟨-, projects, hprojects, -⟩ := hresult.resolve_left fun hzero => hsome hzero.1
    exact Solution.exists_describe hprojects []
  · obtain ⟨rfl, hpublished, -, hloaded, hlisted⟩ := h
    rintro ⟨hinspectable, hdescribed⟩
    have hsurveyed : Surveyed engine store paths base solution members :=
      ⟨hpublished, hloaded, hlisted, hinspectable⟩
    by_cases hzero : (scan store.disk base members paths).2.summed.totalSynced = 0
    · exact ⟨_, _, Store.sync_eq_ok.mpr ⟨_, _, _, hsurveyed, .inl ⟨hzero, rfl, rfl⟩⟩⟩
    · obtain ⟨projects, hprojects⟩ := hdescribed ((totalSynced_ne_zero_iff hinspectable).mp hzero)
      obtain ⟨projects', hprojects'⟩ :=
        Solution.exists_describe hprojects (scan store.disk base members paths).1
      exact ⟨_, _, Store.sync_eq_ok.mpr
        ⟨_, _, _, hsurveyed, .inr ⟨hzero, projects', hprojects', rfl, rfl⟩⟩⟩

/-- A series of syncs succeeds exactly if a single sync of all its paths does, in whatever order and
however often they are given. -/
theorem Syncable.exists_syncs_iff {groups : List (List String)}
    (h : Syncable engine disk solution members store base) (hne : ∀ paths ∈ groups, paths ≠ []) :
    (∃ after, Syncs engine store groups after) ↔
      Feasible disk solution members (Looked disk base.root groups) base := by
  induction groups generalizing store base with
  | nil => exact iff_of_true ⟨store, .nil⟩ (by simp [Feasible, Looked, Disk.Spells])
  | cons paths others ih =>
      obtain ⟨hpaths, hothers⟩ := List.forall_mem_cons.mp hne
      rw [looked_cons hpaths]
      constructor
      · rintro ⟨after, run⟩
        cases run with
        | @cons _ _ _ now _ _ _ first rest =>
            have hscanned := (h.atMoment now).exists_sync_iff.mp ⟨_, _, first⟩
            obtain ⟨next, hnext, hfirst⟩ := (h.atMoment now).synced first
            have hrest := (ih hnext hothers).mp ⟨after, rest⟩
            rw [hfirst.root] at hrest
            exact (hfirst.feasible_iff hscanned).mp hrest
      · intro hfeasible
        have hscanned := hfeasible.mono fun key => Or.inl
        obtain ⟨report, middle, first⟩ := (h.atMoment store.now).exists_sync_iff.mpr hscanned
        obtain ⟨next, hnext, hfirst⟩ := (h.atMoment store.now).synced first
        have hrest := (hfirst.feasible_iff hscanned).mpr hfeasible
        rw [← hfirst.root] at hrest
        obtain ⟨after, rest⟩ := (ih hnext hothers).mpr hrest
        exact ⟨after, .cons first rest⟩

/-- Two series of syncs that look at the same paths succeed or fail together. -/
theorem exists_syncs_congr {groups others : List (List String)}
    (hne : ∀ paths ∈ groups, paths ≠ []) (hne' : ∀ paths ∈ others, paths ≠ [])
    (hgroups : groups ≠ []) (hothers : others ≠ []) (hpublished : store.published = some base)
    (hascending : base.documents.Ascending)
    (hsame : Looked store.disk base.root groups = Looked store.disk base.root others) :
    (∃ after, Syncs engine store groups after) ↔ ∃ after, Syncs engine store others after := by
  have hboth : ∀ {solution members}, Syncable engine store.disk solution members store base →
      ((∃ after, Syncs engine store groups after) ↔ ∃ after, Syncs engine store others after) :=
    fun h => by rw [h.exists_syncs_iff hne, hsame, h.exists_syncs_iff hne']
  constructor
  · rintro ⟨after, run⟩
    obtain ⟨solution, members, h⟩ := run.exists_syncable hgroups hpublished hascending
    exact (hboth h).mp ⟨after, run⟩
  · rintro ⟨after, run⟩
    obtain ⟨solution, members, h⟩ := run.exists_syncable hothers hpublished hascending
    exact (hboth h).mpr ⟨after, run⟩

end Store

/-- After a sync the same sync finds nothing to do and publishes nothing. Two syncs of some paths, in either
order, and one sync of all of them, under whatever spellings and however often they are given, succeed or
fail together, and end with the same texts and the same projects. -/
theorem syncs_idempotent_and_composable {engine : Engine} {world : World} {base : Snapshot}
    (hreachable : Reachable engine world) (hpublished : world.store.published = some base) :
    (∀ paths report after now, world.store.sync engine paths = (.ok report, after) →
      ({ after with now } : Store).sync engine paths =
        (.ok ⟨0, 0, 0, 0, report.version⟩, { after with now })) ∧
    ∀ first second whole : List String, first ≠ [] → second ≠ [] → whole ≠ [] →
      (∀ key, world.store.disk.Spells base.root whole key ↔
        world.store.disk.Spells base.root (first ++ second) key) →
      ((∃ after, Store.Syncs engine world.store [first, second] after) ↔
        ∃ after, Store.Syncs engine world.store [second, first] after) ∧
      ((∃ after, Store.Syncs engine world.store [first, second] after) ↔
        ∃ after, Store.Syncs engine world.store [whole] after) ∧
      ∀ after after' after'', Store.Syncs engine world.store [first, second] after →
        Store.Syncs engine world.store [second, first] after' →
        Store.Syncs engine world.store [whole] after'' →
        ∃ next next' next'', after.published = some next ∧ after'.published = some next' ∧
          after''.published = some next'' ∧
          (∀ key, next.text? key = next'.text? key ∧ next.text? key = next''.text? key) ∧
          next.projects = next'.projects ∧ next.projects = next''.projects := by
  have hascending := (hreachable.wellFormed hpublished).filed.ascending
  refine ⟨fun paths report after now h => Store.sync_again now h, ?_⟩
  intro first second whole hfirst hsecond hwhole hspells
  have hne : ∀ paths ∈ [first, second], paths ≠ [] := by simp [hfirst, hsecond]
  have hne' : ∀ paths ∈ [second, first], paths ≠ [] := by simp [hfirst, hsecond]
  have hne'' : ∀ paths ∈ [whole], paths ≠ [] := by simp [hwhole]
  have hswapped : Store.Looked world.store.disk base.root [first, second] =
      Store.Looked world.store.disk base.root [second, first] := by
    funext key
    simp [Store.Looked, Disk.spells_append, or_comm]
  have hjoined : Store.Looked world.store.disk base.root [first, second] =
      Store.Looked world.store.disk base.root [whole] := by
    funext key
    simp [Store.Looked, hspells]
  refine ⟨?_, ?_, ?_⟩
  · exact Store.exists_syncs_congr hne hne' (by simp) (by simp) hpublished hascending hswapped
  · exact Store.exists_syncs_congr hne hne'' (by simp) (by simp) hpublished hascending hjoined
  · intro after after' after'' h h' h''
    obtain ⟨solution, members, hsyncable⟩ := h.exists_syncable (by simp) hpublished hascending
    obtain ⟨next, next', hnext, hnext', htexts, hprojects⟩ := h.agree hne h' hne' hsyncable hswapped
    obtain ⟨_, next'', hagain, hnext'', htexts', hprojects'⟩ := h.agree hne h'' hne'' hsyncable hjoined
    obtain rfl := Option.some.inj (hnext.symm.trans hagain)
    exact ⟨next, next', next'', hnext, hnext', hnext'', fun key => ⟨htexts key, htexts' key⟩,
      hprojects, hprojects'⟩

theorem syncScope_solo (new : String) :
    Store.syncScope (soloDisk new) (soloSnapshot 0 0 "x") ["a"] (some ["a"]) = ["a"] ∧
      Store.syncScope (soloDisk new) (soloSnapshot 0 0 "x") ["a"] (some ["a", "/a"]) = ["a"] := by
  have hroot : (soloSnapshot 0 0 "x").root = "/" := rfl
  have hnormal : (soloDisk new).normal? "/" "/a" = some "a" := by cbv
  constructor
  · rw [Store.syncScope, hroot, List.filterMap_cons, List.filterMap_nil, normal?_solo]
    decide
  · rw [Store.syncScope, hroot, List.filterMap_cons, List.filterMap_cons, List.filterMap_nil,
      normal?_solo, hnormal]
    decide

/-- The file of the small workspace is synced by its name, by its absolute path, and by both. -/
theorem solo_syncs_compose :
    Reachable soloEngine (soloWorld "zx" (some (soloSnapshot 0 0 "x")) [] [0]) ∧
      (soloWorld "zx" (some (soloSnapshot 0 1 "zx")) [] [0]).store.sync soloEngine (some ["a"]) =
        (.ok ⟨0, 0, 0, 0, 1⟩, (soloWorld "zx" (some (soloSnapshot 0 1 "zx")) [] [0]).store) ∧
      ∃ after next, Store.Syncs soloEngine (soloWorld "zx" (some (soloSnapshot 0 0 "x")) [] [0]).store
          [["a"], ["/a"]] after ∧
        after.published = some next ∧ next.text? "a" = some "zx" := by
  obtain ⟨hname, hboth⟩ := syncScope_solo "zx"
  have hfirst := sync_solo_of_scope [] [0] (by decide) hname
  have hwhole := sync_solo_of_scope [] [0] (by decide) hboth
  obtain ⟨hagain, hcompose⟩ := syncs_idempotent_and_composable (reachable_solo "zx") rfl
  obtain ⟨hswapped, hjoined, hagree⟩ := hcompose ["a"] ["/a"] ["a", "/a"] (by simp) (by simp) (by simp)
    fun _ => Iff.rfl
  have hone : Store.Syncs soloEngine (soloWorld "zx" (some (soloSnapshot 0 0 "x")) [] [0]).store
      [["a", "/a"]] (soloWorld "zx" (some (soloSnapshot 0 1 "zx")) [] [0]).store := .cons hwhole .nil
  obtain ⟨after, htwo⟩ := hjoined.mpr ⟨_, hone⟩
  obtain ⟨after', hother⟩ := hswapped.mp ⟨after, htwo⟩
  obtain ⟨next, next', next'', hnext, -, hnext'', htexts, -⟩ := hagree after after' _ htwo hother hone
  obtain rfl := Option.some.inj hnext''
  exact ⟨reachable_solo "zx", hagain _ _ _ "" hfirst, after, next, htwo, hnext, (htexts "a").2⟩

end CodeIntel
