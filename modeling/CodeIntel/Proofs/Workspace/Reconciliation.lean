import CodeIntel.Proofs.Workspace.EditedFiles

/-! What a sync does. For each path that it looks at it finds one change, which depends on the snapshot,
the disk and the source files of the solution alone, not on what was found before; so the documents after
the sync and its counts can be told path by path. -/

namespace CodeIntel

open World

/-- The document under a path once a change is made. -/
def Change.outcome (version : Nat) (path : String) (existing : Option Document) :
    Change → Option Document
  | .none => existing
  | .added text | .updated text => some ⟨path, text, version⟩
  | .removed => Option.none

def Change.isAdded : Change → Bool
  | .added _ => true
  | _ => false

def Change.isUpdated : Change → Bool
  | .updated _ => true
  | _ => false

def Change.isRemoved : Change → Bool
  | .removed => true
  | _ => false

/-- The paths of one map that another does not have. -/
def Keyed.only {α : Type} (map other : Keyed α) : List String :=
  map.keys.filter fun key => (other.get? key).isNone

/-- The paths under which both maps have a document, with different texts. -/
def Keyed.differing (map other : Keyed Document) : List String :=
  map.keys.filter fun key =>
    match map.get? key, other.get? key with
    | some old, some new => old.differsFrom new.text
    | _, _ => false

theorem Change.get?_applyTo (documents : Keyed Document) (version : Nat) (path key : String)
    (change : Change) :
    (change.applyTo documents version path).get? key =
      if key = path then change.outcome version path (documents.get? path)
      else documents.get? key := by
  by_cases hkey : key = path
  · subst hkey
    cases change <;> simp [applyTo, outcome]
  · rw [if_neg hkey]
    cases change with
    | none => rfl
    | added | updated => exact Keyed.get?_insert_of_ne _ _ hkey
    | removed => exact Keyed.get?_erase_of_ne _ hkey

theorem Change.outcome_outcome (version : Nat) (path : String) (existing : Option Document)
    (change : Change) :
    change.outcome version path (change.outcome version path existing) =
      change.outcome version path existing := by
  cases change <;> rfl

theorem Change.ascending_applyTo {documents : Keyed Document} (h : documents.Ascending) (version : Nat)
    (path : String) (change : Change) : (change.applyTo documents version path).Ascending := by
  cases change with
  | none => exact h
  | added | updated => exact h.insert _ _
  | removed => exact h.erase _

theorem Disk.read_of_readSource_none {disk : Disk} {path : String}
    (h : disk.readSource path = .ok none) : disk.read path = .error .notFound := by
  unfold readSource at h
  split at h
  · split at h <;> cases h
  · assumption
  · cases h

namespace Store

variable {engine : Engine} {store after : Store} {disk : Disk} {base : Snapshot}
  {members : List String}

/-! ### One path -/

/-- The change that a sync finds at a path. A path that is neither a source file nor a document is not
looked at on the disk. -/
def finding (disk : Disk) (base : Snapshot) (members : List String) (path : String) :
    Except Error Change :=
  if !members.contains path && (base.documents.get? path).isNone then .ok .none
  else (disk.readSource (Path.join base.root path)).map
    (Change.of (members.contains path) (base.documents.get? path))

/-- The change at a path; none where the disk refuses. -/
def found (disk : Disk) (base : Snapshot) (members : List String) (path : String) : Change :=
  (finding disk base members path).toOption.getD .none

theorem syncPath_eq (disk : Disk) (base : Snapshot) (members : List String)
    (sofar : Keyed Document × SyncReport) (path : String) :
    syncPath disk base members sofar path =
      (finding disk base members path).map fun change =>
        (change.applyTo sofar.1 (base.version + 1) path, sofar.2.count change) := by
  rw [syncPath, finding]
  dsimp only
  split
  · rfl
  · cases disk.readSource (Path.join base.root path) <;> rfl

theorem found_of_finding {path : String} {change : Change}
    (h : finding disk base members path = .ok change) : found disk base members path = change := by
  rw [found, h]
  rfl

/-- All that a sync can find at a path. -/
inductive Finds (disk : Disk) (base : Snapshot) (members : List String) (path : String) :
    Change → Prop where
  | unrelated : path ∉ members → base.document? path = none → Finds disk base members path .none
  | missing : path ∈ members → base.document? path = none →
      disk.read (Path.join base.root path) = .error .notFound → Finds disk base members path .none
  | added {text : String} : path ∈ members → base.document? path = none →
      disk.read (Path.join base.root path) = .ok text.toUTF8 →
      Finds disk base members path (.added text)
  | gone {document : Document} : base.document? path = some document →
      disk.read (Path.join base.root path) = .error .notFound → Finds disk base members path .removed
  | expelled {document : Document} : path ∉ members → base.document? path = some document →
      Finds disk base members path .removed
  | updated {document : Document} {text : String} : path ∈ members →
      base.document? path = some document → document.text ≠ text →
      disk.read (Path.join base.root path) = .ok text.toUTF8 →
      Finds disk base members path (.updated text)
  | kept {document : Document} : path ∈ members → base.document? path = some document →
      disk.read (Path.join base.root path) = .ok document.text.toUTF8 →
      Finds disk base members path .none

theorem finds_of_finding {path : String} {change : Change}
    (h : finding disk base members path = .ok change) : Finds disk base members path change := by
  rw [finding] at h
  split at h
  · rename_i hskipped
    obtain rfl := Except.ok.inj h
    simp only [Bool.and_eq_true, Bool.not_eq_true', List.contains_eq_mem, decide_eq_false_iff_not,
      Option.isNone_iff_eq_none] at hskipped
    exact .unrelated hskipped.1 hskipped.2
  · rename_i hlooked
    obtain ⟨onDisk, hread, rfl⟩ := map_eq_ok.mp h
    cases hexisting : base.documents.get? path with
    | none =>
        have hmember : path ∈ members := by simpa [hexisting] using hlooked
        cases onDisk with
        | none => exact .missing hmember hexisting (Disk.read_of_readSource_none hread)
        | some text => exact .added hmember hexisting (Disk.read_of_readSource hread)
    | some document =>
        cases onDisk with
        | none => exact .gone hexisting (Disk.read_of_readSource_none hread)
        | some text =>
            have hread' := Disk.read_of_readSource hread
            by_cases hmember : path ∈ members
            · by_cases htext : document.text = text
              · subst htext
                simpa [Change.of, hmember, Document.differsFrom] using
                  Finds.kept hmember hexisting hread'
              · simpa [Change.of, hmember, Document.differsFrom, htext] using
                  Finds.updated hmember hexisting htext hread'
            · simpa [Change.of, hmember] using Finds.expelled hmember hexisting

section

variable {path : String} {change : Change} (h : Finds disk base members path change)
include h

/-- After the change there is a document exactly where a source file is. -/
theorem Finds.exists_iff :
    (∃ document, change.outcome (base.version + 1) path (base.document? path) = some document) ↔
      path ∈ members ∧ ∃ content, disk.read (Path.join base.root path) = .ok content := by
  cases h with
  | unrelated | expelled => simp [Change.outcome, *]
  | missing hmember hnone hread => simp [Change.outcome, hnone, hread]
  | gone hold hread => simp [Change.outcome, hread]
  | added hmember hnone hread => simp [Change.outcome, hmember, hread]
  | updated hmember hold htext hread => simp [Change.outcome, hmember, hread]
  | kept hmember hold hread => simp [Change.outcome, hmember, hold, hread]

theorem Finds.read_eq {document : Document}
    (hdocument : change.outcome (base.version + 1) path (base.document? path) = some document) :
    disk.read (Path.join base.root path) = .ok document.text.toUTF8 := by
  cases h with
  | unrelated _ hnone | missing _ hnone _ =>
      rw [Change.outcome, hnone] at hdocument
      cases hdocument
  | gone | expelled => cases hdocument
  | added _ _ hread | updated _ _ _ hread =>
      obtain rfl := Option.some.inj hdocument
      exact hread
  | kept _ hold hread =>
      rw [Change.outcome, hold] at hdocument
      rw [← Option.some.inj hdocument]
      exact hread

/-- A document that is there before and after the change is another one only if its text is another. -/
theorem Finds.eq_or_stamped {document : Document}
    (hdocument : change.outcome (base.version + 1) path (base.document? path) = some document) :
    base.document? path = some document ∨
      (document.version = base.version + 1 ∧
        ∀ old, base.document? path = some old → old.text ≠ document.text) := by
  cases h with
  | unrelated | missing | kept => exact .inl hdocument
  | gone | expelled => cases hdocument
  | added _ hnone _ =>
      obtain rfl := Option.some.inj hdocument
      exact .inr ⟨rfl, fun old hold => by rw [hnone] at hold; cases hold⟩
  | updated _ hold htext _ =>
      obtain rfl := Option.some.inj hdocument
      refine .inr ⟨rfl, fun old hold' => ?_⟩
      obtain rfl := Option.some.inj (hold.symm.trans hold')
      exact htext

theorem Finds.isAdded_iff :
    change.isAdded = true ↔ base.document? path = none ∧
      (change.outcome (base.version + 1) path (base.document? path)).isSome := by
  cases h <;> simp [Change.isAdded, Change.outcome, *]

theorem Finds.isRemoved_iff :
    change.isRemoved = true ↔ (base.document? path).isSome ∧
      change.outcome (base.version + 1) path (base.document? path) = none := by
  cases h <;> simp [Change.isRemoved, Change.outcome, *]

theorem Finds.isUpdated_iff :
    change.isUpdated = true ↔ ∃ old new, base.document? path = some old ∧
      change.outcome (base.version + 1) path (base.document? path) = some new ∧
      old.text ≠ new.text := by
  cases h <;> simp [Change.isUpdated, Change.outcome, *]

end

/-! ### All paths -/

/-- The documents and the counts once the changes at some paths are made. -/
def afterChanges (disk : Disk) (base : Snapshot) (members paths : List String)
    (start : Keyed Document × SyncReport) : Keyed Document × SyncReport :=
  paths.foldl
    (fun sofar path =>
      ((found disk base members path).applyTo sofar.1 (base.version + 1) path,
        sofar.2.count (found disk base members path)))
    start

theorem foldlM_syncPath_eq_ok {paths : List String} {start final : Keyed Document × SyncReport} :
    paths.foldlM (syncPath disk base members) start = .ok final ↔
      (∀ path ∈ paths, ∃ change, finding disk base members path = .ok change) ∧
        afterChanges disk base members paths start = final := by
  induction paths generalizing start with
  | nil =>
      simp only [afterChanges, List.foldlM_nil, List.foldl_nil, List.not_mem_nil, false_implies,
        implies_true, true_and]
      exact ⟨Except.ok.inj, congrArg Except.ok⟩
  | cons path rest ih =>
      rw [List.foldlM_cons, bind_eq_ok, List.forall_mem_cons, and_assoc]
      constructor
      · rintro ⟨middle, hmiddle, hrest⟩
        rw [syncPath_eq] at hmiddle
        obtain ⟨change, hchange, rfl⟩ := map_eq_ok.mp hmiddle
        obtain ⟨hfindings, hfinal⟩ := ih.mp hrest
        refine ⟨⟨change, hchange⟩, hfindings, ?_⟩
        rw [afterChanges, List.foldl_cons, found_of_finding hchange]
        exact hfinal
      · rintro ⟨⟨change, hchange⟩, hfindings, hfinal⟩
        rw [afterChanges, List.foldl_cons, found_of_finding hchange] at hfinal
        refine ⟨_, ?_, ih.mpr ⟨hfindings, hfinal⟩⟩
        rw [syncPath_eq, hchange]
        rfl

theorem get?_afterChanges (disk : Disk) (base : Snapshot) (members paths : List String)
    (start : Keyed Document × SyncReport) (key : String) :
    (afterChanges disk base members paths start).1.get? key =
      if key ∈ paths then
        (found disk base members key).outcome (base.version + 1) key (start.1.get? key)
      else start.1.get? key := by
  induction paths generalizing start with
  | nil => rfl
  | cons path rest ih =>
      rw [afterChanges, List.foldl_cons, ← afterChanges, ih, Change.get?_applyTo]
      by_cases hkey : key = path
      · subst hkey
        simp [Change.outcome_outcome]
      · simp [hkey]

theorem ascending_afterChanges {start : Keyed Document × SyncReport} (h : start.1.Ascending)
    (disk : Disk) (base : Snapshot) (members paths : List String) :
    (afterChanges disk base members paths start).1.Ascending := by
  induction paths generalizing start with
  | nil => exact h
  | cons path rest ih => exact ih (Change.ascending_applyTo h _ _ _)

/-- Each change is counted once. -/
theorem counts_afterChanges (disk : Disk) (base : Snapshot) (members paths : List String)
    (start : Keyed Document × SyncReport) :
    (afterChanges disk base members paths start).2 =
      { start.2 with
        added := start.2.added + paths.countP fun path => (found disk base members path).isAdded
        updated := start.2.updated +
          paths.countP fun path => (found disk base members path).isUpdated
        removed := start.2.removed +
          paths.countP fun path => (found disk base members path).isRemoved } := by
  induction paths generalizing start with
  | nil => rfl
  | cons path rest ih =>
      rw [afterChanges, List.foldl_cons, ← afterChanges, ih]
      cases hfound : found disk base members path <;>
        simp [SyncReport.count, Change.isAdded, Change.isUpdated, Change.isRemoved, hfound] <;> omega

/-! ### A sync as a whole -/

/-- The paths that a sync looks at: the normal forms of those given or, without any, all source files
and all documents. -/
def Scanned (disk : Disk) (base : Snapshot) (members : List String) :
    Option (List String) → String → Prop
  | some (path :: paths), key =>
    key ≠ "" ∧ ∃ given ∈ path :: paths, disk.normal? base.root given = some key
  | _, key => key ∈ members ∨ ∃ document, base.document? key = some document

theorem mem_syncScope {paths : Option (List String)} {key : String} :
    key ∈ syncScope disk base members paths ↔ Scanned disk base members paths key := by
  have hall : key ∈ ascending (members ++ base.documents.keys) ↔
      key ∈ members ∨ ∃ document, base.document? key = some document := by
    rw [mem_ascending, List.mem_append, Keyed.mem_keys]
    rfl
  rcases paths with _ | _ | ⟨path, paths⟩
  · exact hall
  · exact hall
  · rw [syncScope, mem_ascending, List.mem_filterMap, Scanned, ← exists_and_left]
    refine exists_congr fun given => ?_
    rw [and_left_comm]
    refine and_congr_right fun _ => ?_
    split
    · rename_i hempty
      rw [hempty]
      simp [eq_comm]
    · rename_i hsome
      constructor
      · intro hfound
        refine ⟨?_, hfound⟩
        rintro rfl
        exact hsome hfound
      · exact And.right

theorem nodup_syncScope (disk : Disk) (base : Snapshot) (members : List String)
    (paths : Option (List String)) : (syncScope disk base members paths).Nodup := by
  rcases paths with _ | _ | ⟨path, paths⟩
  · exact nodup_ascending _
  · exact nodup_ascending _
  · exact nodup_ascending _

/-- The documents and the counts of a whole sync. -/
def scan (disk : Disk) (base : Snapshot) (members : List String) (paths : Option (List String)) :
    Keyed Document × SyncReport :=
  afterChanges disk base members (syncScope disk base members paths)
    (base.documents, ⟨0, 0, 0, 0, base.version⟩)

theorem counts_scan (disk : Disk) (base : Snapshot) (members : List String)
    (paths : Option (List String)) :
    let scope := syncScope disk base members paths
    let report := (scan disk base members paths).2.summed
    report.added = (scope.countP fun path => (found disk base members path).isAdded) ∧
      report.updated = (scope.countP fun path => (found disk base members path).isUpdated) ∧
      report.removed = (scope.countP fun path => (found disk base members path).isRemoved) := by
  simp [scan, counts_afterChanges, SyncReport.summed]

theorem version_scan (disk : Disk) (base : Snapshot) (members : List String)
    (paths : Option (List String)) :
    (scan disk base members paths).2.summed.version = base.version := by
  simp [scan, counts_afterChanges, SyncReport.summed]

/-- What a sync reads before it publishes anything. -/
structure Surveyed (engine : Engine) (store : Store) (paths : Option (List String)) (base : Snapshot)
    (solution : Solution) (members : List String) : Prop where
  published : store.published = some base
  loaded : engine.loadSolution store.disk base.descriptor = .done solution
  listed : solution.memberPaths store.disk = .ok members
  findings : ∀ path, Scanned store.disk base members paths path →
    ∃ change, finding store.disk base members path = .ok change

theorem prepareSync_eq_done {paths : Option (List String)} {pending : PendingSync} :
    store.prepareSync engine paths = .done pending ↔
      ∃ base solution members, Surveyed engine store paths base solution members ∧
        let (documents, counted) := scan store.disk base members paths
        (counted.summed.totalSynced = 0 ∧ pending = ⟨base, none, counted.summed⟩) ∨
          (counted.summed.totalSynced ≠ 0 ∧
            ∃ projects, solution.describe store.disk documents = .ok projects ∧
              pending = ⟨base, some (syncedSnapshot store base projects documents), counted.summed⟩) := by
  rw [prepareSync_eq_done_iff]
  constructor
  · rintro ⟨base, solution, members, documents, counted, hbase, hsolution, hmembers, hscan, hpending⟩
    obtain ⟨hfindings, hchanged⟩ := foldlM_syncPath_eq_ok.mp hscan
    rw [← scan] at hchanged
    refine ⟨base, solution, members, ⟨hbase, hsolution, hmembers,
      fun path hpath => hfindings path (mem_syncScope.mpr hpath)⟩, ?_⟩
    rw [hchanged]
    exact hpending
  · rintro ⟨base, solution, members, hsurveyed, hpending⟩
    exact ⟨base, solution, members, (scan store.disk base members paths).1,
      (scan store.disk base members paths).2, hsurveyed.published, hsurveyed.loaded, hsurveyed.listed,
      foldlM_syncPath_eq_ok.mpr ⟨fun path hmem => hsurveyed.findings path (mem_syncScope.mp hmem), rfl⟩,
      hpending⟩

theorem sync_eq_ok_iff_commit {paths : Option (List String)} {report : SyncReport} :
    store.sync engine paths = (.ok report, after) ↔
      ∃ pending, store.prepareSync engine paths = .done pending ∧
        store.commitSync pending = (.ok report, after) := by
  rw [sync]
  cases hsettled : (store.prepareSync engine paths).settled with
  | error error =>
      refine iff_of_false (by simp) ?_
      rintro ⟨pending, hpending, -⟩
      rw [Outcome.settled_eq_ok.mpr hpending] at hsettled
      cases hsettled
  | ok pending => simp [Outcome.settled_eq_ok.mp hsettled]

/-- A sync in one go: nothing is published where nothing changed, and otherwise what was worked out
takes the place of its base. -/
theorem sync_eq_ok {paths : Option (List String)} {report : SyncReport} :
    store.sync engine paths = (.ok report, after) ↔
      ∃ base solution members, Surveyed engine store paths base solution members ∧
        let (documents, counted) := scan store.disk base members paths
        (counted.summed.totalSynced = 0 ∧ report = counted.summed ∧ after = store) ∨
          (counted.summed.totalSynced ≠ 0 ∧
            ∃ projects, solution.describe store.disk documents = .ok projects ∧
              report = { counted.summed with version := base.version + 1 } ∧
              after = store.publish (syncedSnapshot store base projects documents)) := by
  rw [sync_eq_ok_iff_commit]
  constructor
  · rintro ⟨pending, hpending, hcommit⟩
    obtain ⟨base, solution, members, hsurveyed, hresult⟩ := prepareSync_eq_done.mp hpending
    refine ⟨base, solution, members, hsurveyed, ?_⟩
    dsimp only at hresult ⊢
    rcases hresult with ⟨hzero, rfl⟩ | ⟨hsome, projects, hprojects, rfl⟩
    · obtain ⟨hreport, hafter⟩ := Prod.mk.inj hcommit
      exact .inl ⟨hzero, (Except.ok.inj hreport).symm, hafter.symm⟩
    · -- The base is still published, so that the commit is not refused.
      have hcurrent := ensureCurrent_eq_ok.mpr ⟨hsurveyed.published, rfl, rfl⟩
      simp only [commitSync, hcurrent] at hcommit
      obtain ⟨hreport, hafter⟩ := Prod.mk.inj hcommit
      exact .inr ⟨hsome, projects, hprojects, (Except.ok.inj hreport).symm, hafter.symm⟩
  · rintro ⟨base, solution, members, hsurveyed, hresult⟩
    dsimp only at hresult
    rcases hresult with ⟨hzero, rfl, rfl⟩ | ⟨hsome, projects, hprojects, rfl, rfl⟩
    · exact ⟨_, prepareSync_eq_done.mpr ⟨_, _, _, hsurveyed, .inl ⟨hzero, rfl⟩⟩, rfl⟩
    · refine ⟨_, prepareSync_eq_done.mpr
        ⟨_, _, _, hsurveyed, .inr ⟨hsome, projects, hprojects, rfl⟩⟩, ?_⟩
      simp only [commitSync, ensureCurrent_eq_ok.mpr ⟨hsurveyed.published, rfl, rfl⟩]
      rfl

/-! ### What the documents and the counts are then -/

/-- Documents that a sync leaves and a report on them. Where it looked there is a document exactly for
each source file that is on the disk, with its text; elsewhere nothing is touched; and the report counts
the paths under which the documents differ from those before. -/
structure Reconciles (disk : Disk) (base : Snapshot) (members : List String)
    (scanned : String → Prop) (documents : Keyed Document) (report : SyncReport) : Prop where
  exists_iff : ∀ key, scanned key →
    ((∃ document, documents.get? key = some document) ↔
      key ∈ members ∧ ∃ content, disk.read (Path.join base.root key) = .ok content)
  read_eq : ∀ key document, scanned key → documents.get? key = some document →
    disk.read (Path.join base.root key) = .ok document.text.toUTF8
  unscanned : ∀ key, ¬ scanned key → documents.get? key = base.document? key
  same_text : ∀ key old new, base.document? key = some old → documents.get? key = some new →
    old.text = new.text → new = old
  stamped : ∀ key new, documents.get? key = some new → base.document? key ≠ some new →
    new.version = base.version + 1
  added : report.added = (documents.only base.documents).length
  updated : report.updated = (base.documents.differing documents).length
  removed : report.removed = (base.documents.only documents).length
  total : report.totalSynced = report.added + report.updated + report.removed

theorem mem_only {map other : Keyed Document} {key : String} :
    key ∈ map.only other ↔ (map.get? key).isSome ∧ other.get? key = none := by
  rw [Keyed.only, List.mem_filter, Keyed.mem_keys, Option.isSome_iff_exists,
    Option.isNone_iff_eq_none]

theorem nodup_only {map : Keyed Document} (h : map.Ascending) (other : Keyed Document) :
    (map.only other).Nodup := h.nodup_keys.filter _

theorem mem_differing {map other : Keyed Document} {key : String} :
    key ∈ map.differing other ↔ ∃ old new, map.get? key = some old ∧ other.get? key = some new ∧
      old.text ≠ new.text := by
  rw [Keyed.differing, List.mem_filter, Keyed.mem_keys]
  cases map.get? key with
  | none => simp
  | some old =>
      cases other.get? key with
      | none => simp
      | some new => simp [Document.differsFrom]

theorem nodup_differing {map : Keyed Document} (h : map.Ascending) (other : Keyed Document) :
    (map.differing other).Nodup := h.nodup_keys.filter _

/-- Two ways to count the same paths. -/
theorem countP_eq_length_of_mem_iff {paths keys : List String} {counted : String → Bool}
    (hpaths : paths.Nodup) (hkeys : keys.Nodup)
    (hmem : ∀ key, key ∈ keys ↔ key ∈ paths ∧ counted key = true) :
    paths.countP counted = keys.length := by
  rw [List.countP_eq_length_filter]
  refine ((List.perm_ext_iff_of_nodup (hpaths.filter _) hkeys).mpr fun key => ?_).length_eq
  rw [List.mem_filter, hmem]

section

variable {paths : Option (List String)}
  (hfindings : ∀ path, Scanned disk base members paths path →
    ∃ change, finding disk base members path = .ok change)
include hfindings

/-- Each path either was looked at, and has what was found there, or is as before. -/
theorem get?_scan (key : String) :
    (∃ change, Scanned disk base members paths key ∧ found disk base members key = change ∧
      Finds disk base members key change ∧
      (scan disk base members paths).1.get? key =
        change.outcome (base.version + 1) key (base.document? key)) ∨
    (¬ Scanned disk base members paths key ∧
      (scan disk base members paths).1.get? key = base.document? key) := by
  have hget := get?_afterChanges disk base members (syncScope disk base members paths)
    (base.documents, ⟨0, 0, 0, 0, base.version⟩) key
  by_cases hscanned : Scanned disk base members paths key
  · obtain ⟨change, hchange⟩ := hfindings key hscanned
    rw [if_pos (mem_syncScope.mpr hscanned), found_of_finding hchange] at hget
    exact .inl ⟨change, hscanned, found_of_finding hchange, finds_of_finding hchange, hget⟩
  · rw [if_neg fun hmem => hscanned (mem_syncScope.mp hmem)] at hget
    exact .inr ⟨hscanned, hget⟩

/-- What is counted of a kind of change are the paths that show it. -/
theorem countP_found (counts : Change → Bool) (shows : Option Document → Option Document → Prop)
    (hcounts : ∀ path change, Finds disk base members path change →
      (counts change = true ↔
        shows (base.document? path) (change.outcome (base.version + 1) path (base.document? path))))
    (hshows : ∀ document?, ¬ shows document? document?) {keys : List String} (hkeys : keys.Nodup)
    (hmem : ∀ key, key ∈ keys ↔
      shows (base.document? key) ((scan disk base members paths).1.get? key)) :
    ((syncScope disk base members paths).countP fun path => counts (found disk base members path)) =
      keys.length := by
  refine countP_eq_length_of_mem_iff (nodup_syncScope disk base members paths) hkeys fun key => ?_
  rw [hmem, mem_syncScope]
  rcases get?_scan hfindings key with ⟨change, hscanned, hfound, hfinds, hget⟩ | ⟨hnot, hget⟩
  · rw [hget, hfound, hcounts key change hfinds]
    exact (and_iff_right hscanned).symm
  · rw [hget]
    exact iff_of_false (hshows _) fun h => hnot h.1

theorem reconciles_scan (hascending : base.documents.Ascending) :
    Reconciles disk base members (Scanned disk base members paths) (scan disk base members paths).1
      (scan disk base members paths).2.summed := by
  have hascending' : (scan disk base members paths).1.Ascending :=
    ascending_afterChanges hascending disk base members _
  obtain ⟨hadded, hupdated, hremoved⟩ := counts_scan disk base members paths
  have hget := get?_scan hfindings
  refine ⟨?_, ?_, ?_, ?_, ?_, ?_, ?_, ?_, rfl⟩
  · intro key hscanned
    obtain ⟨change, -, -, hfinds, hkey⟩ := (hget key).resolve_right fun h => h.1 hscanned
    rw [hkey]
    exact hfinds.exists_iff
  · intro key document hscanned hdocument
    obtain ⟨change, -, -, hfinds, hkey⟩ := (hget key).resolve_right fun h => h.1 hscanned
    exact hfinds.read_eq (hkey ▸ hdocument)
  · intro key hnot
    rcases hget key with ⟨_, hscanned, -⟩ | ⟨-, hkey⟩
    · exact absurd hscanned hnot
    · exact hkey
  · intro key old new hold hnew htext
    rcases hget key with ⟨change, -, -, hfinds, hkey⟩ | ⟨-, hkey⟩
    · rcases hfinds.eq_or_stamped (hkey ▸ hnew) with hsame | ⟨-, hother⟩
      · exact Option.some.inj (hsame.symm.trans hold)
      · exact absurd htext (hother old hold)
    · exact Option.some.inj (hnew.symm.trans (hkey.trans hold))
  · intro key new hnew hchanged
    rcases hget key with ⟨change, -, -, hfinds, hkey⟩ | ⟨-, hkey⟩
    · exact ((hfinds.eq_or_stamped (hkey ▸ hnew)).resolve_left hchanged).1
    · exact absurd (hkey ▸ hnew) hchanged
  · rw [hadded]
    exact countP_found hfindings Change.isAdded (fun old new => old = none ∧ new.isSome)
      (fun _ _ hfinds => hfinds.isAdded_iff) (by simp +contextual)
      (nodup_only hascending' _) fun _ => mem_only.trans and_comm
  · rw [hupdated]
    exact countP_found hfindings Change.isUpdated
      (fun old? new? => ∃ old new, old? = some old ∧ new? = some new ∧ old.text ≠ new.text)
      (fun _ _ hfinds => hfinds.isUpdated_iff) (by simp +contextual)
      (nodup_differing hascending _) fun _ => mem_differing
  · rw [hremoved]
    exact countP_found hfindings Change.isRemoved (fun old new => old.isSome ∧ new = none)
      (fun _ _ hfinds => hfinds.isRemoved_iff) (by rintro (_ | _) <;> simp)
      (nodup_only hascending _) fun _ => mem_only

end

theorem Change.eq_none_of_uncounted {change : Change} (hadded : change.isAdded = false)
    (hupdated : change.isUpdated = false) (hremoved : change.isRemoved = false) : change = .none := by
  cases change with
  | none => rfl
  | added => cases hadded
  | updated => cases hupdated
  | removed => cases hremoved

theorem afterChanges_of_none {paths : List String}
    (h : ∀ path ∈ paths, found disk base members path = .none)
    (start : Keyed Document × SyncReport) : afterChanges disk base members paths start = start := by
  induction paths generalizing start with
  | nil => rfl
  | cons path rest ih =>
      obtain ⟨hpath, hrest⟩ := List.forall_mem_cons.mp h
      rw [afterChanges, List.foldl_cons, hpath]
      exact ih hrest start

/-- Where nothing is counted, no path has changed. -/
theorem found_of_totalSynced_eq_zero {paths : Option (List String)}
    (h : (scan disk base members paths).2.summed.totalSynced = 0) :
    ∀ path ∈ syncScope disk base members paths, found disk base members path = .none := by
  obtain ⟨hadded, hupdated, hremoved⟩ := counts_scan disk base members paths
  have hsum : (scan disk base members paths).2.summed.added +
      (scan disk base members paths).2.summed.updated +
      (scan disk base members paths).2.summed.removed = 0 := h
  have huncounted : ∀ counts : Change → Bool,
      ((syncScope disk base members paths).countP fun path =>
        counts (found disk base members path)) = 0 →
      ∀ path ∈ syncScope disk base members paths,
        counts (found disk base members path) = false :=
    fun _ hzero path hpath => eq_false_of_ne_true (List.countP_eq_zero.mp hzero path hpath)
  intro path hpath
  exact Change.eq_none_of_uncounted (huncounted _ (by omega) path hpath)
    (huncounted _ (by omega) path hpath) (huncounted _ (by omega) path hpath)

theorem scan_of_totalSynced_eq_zero {paths : Option (List String)}
    (h : (scan disk base members paths).2.summed.totalSynced = 0) :
    (scan disk base members paths).1 = base.documents := by
  rw [scan, afterChanges_of_none (found_of_totalSynced_eq_zero h)]

end Store

/-- A sync that succeeds meets its specification: at the paths that it looked at there are then documents
exactly for the source files of the solution that are on the disk, with their texts; whatever did not
change is the document it was; the report counts the paths under which the documents differ; and the next
version is published when there are any. -/
theorem sync_reconciles {engine : Engine} {world : World} {base : Snapshot}
    {paths : Option (List String)} {report : SyncReport} {after : Store}
    (hreachable : Reachable engine world) (hpublished : world.store.published = some base)
    (h : world.store.sync engine paths = (.ok report, after)) :
    ∃ solution members next, engine.loadSolution world.store.disk base.descriptor = .done solution ∧
      solution.memberPaths world.store.disk = .ok members ∧
      Store.Reconciles world.store.disk base members
        (Store.Scanned world.store.disk base members paths) next.documents report ∧
      after = { world.store with published := some next } ∧ report.version = next.version ∧
      (report.totalSynced = 0 → next = base) ∧
      (0 < report.totalSynced → next.id = base.id ∧ next.version = base.version + 1 ∧
        next.root = base.root ∧ next.descriptor = base.descriptor ∧
        solution.describe world.store.disk next.documents = .ok next.projects) := by
  obtain ⟨_, solution, members, hsurveyed, hresult⟩ := Store.sync_eq_ok.mp h
  obtain rfl := Option.some.inj (hpublished.symm.trans hsurveyed.published)
  have hreconciles := Store.reconciles_scan hsurveyed.findings
    (hreachable.wellFormed hpublished).filed.ascending
  dsimp only at hresult
  rcases hresult with ⟨hzero, rfl, rfl⟩ | ⟨hsome, projects, hprojects, rfl, rfl⟩
  · refine ⟨solution, members, base, hsurveyed.loaded, hsurveyed.listed, ?_, ?_, ?_, fun _ => rfl,
      fun hpos => absurd hzero (Nat.ne_of_gt hpos)⟩
    · rw [Store.scan_of_totalSynced_eq_zero hzero] at hreconciles
      exact hreconciles
    · rw [← hpublished]
    · exact Store.version_scan ..
  · refine ⟨solution, members, _, hsurveyed.loaded, hsurveyed.listed, ?_, rfl, rfl,
      fun hzero => absurd hzero hsome, fun _ => ⟨rfl, rfl, rfl, rfl, hprojects⟩⟩
    exact { hreconciles with }

/-- A sync that looks at the one file of the small workspace reads its new text. -/
theorem sync_solo_of_scope {old new : String} {paths : Option (List String)} (loads : List PendingLoad)
    (drawn : List Nat) (hchanged : old ≠ new)
    (hscope : Store.syncScope (soloDisk new) (soloSnapshot 0 0 old) ["a"] paths = ["a"]) :
    (soloWorld new (some (soloSnapshot 0 0 old)) loads drawn).store.sync soloEngine paths =
      (.ok ⟨0, 1, 0, 1, 1⟩, (soloWorld new (some (soloSnapshot 0 1 new)) loads drawn).store) := by
  have hfinding : Store.finding (soloDisk new) (soloSnapshot 0 0 old) ["a"] "a" =
      .ok (.updated new) := by
    have hexisting : (soloSnapshot 0 0 old).documents.get? "a" = some ⟨"a", old, 0⟩ := rfl
    have hread : (soloDisk new).readSource (Path.join (soloSnapshot 0 0 old).root "a") =
        .ok (some new) := join_solo ▸ readSource_soloDisk new
    rw [Store.finding, hexisting, hread]
    simp [Except.map, Change.of, Document.differsFrom, hchanged]
  have hscan : Store.scan (soloDisk new) (soloSnapshot 0 0 old) ["a"] paths =
      ([("a", ⟨"a", new, 1⟩)], ⟨0, 1, 0, 0, 0⟩) := by
    rw [Store.scan, hscope, Store.afterChanges, List.foldl_cons, Store.found_of_finding hfinding]
    simp [soloSnapshot, Change.applyTo, Keyed.insert, SyncReport.count]
  refine Store.sync_eq_ok.mpr ⟨soloSnapshot 0 0 old, _, ["a"],
    ⟨rfl, rfl, memberPaths_solo _, fun path hpath => ⟨.updated new, ?_⟩⟩, ?_⟩
  · rw [← Store.mem_syncScope] at hpath
    obtain rfl : path = "a" := List.mem_singleton.mp (hscope ▸ hpath)
    exact hfinding
  · have hdisk : (soloWorld new (some (soloSnapshot 0 0 old)) loads drawn).store.disk = soloDisk new :=
      rfl
    rw [hdisk, hscan]
    exact .inr ⟨by decide, _, describe_solo _ _, rfl, rfl⟩

theorem sync_solo {old new : String} (loads : List PendingLoad) (drawn : List Nat)
    (hchanged : old ≠ new) :
    (soloWorld new (some (soloSnapshot 0 0 old)) loads drawn).store.sync soloEngine none =
      (.ok ⟨0, 1, 0, 1, 1⟩, (soloWorld new (some (soloSnapshot 0 1 new)) loads drawn).store) := by
  refine sync_solo_of_scope loads drawn hchanged ?_
  change ascending ["a", "a"] = ["a"]
  decide

/-- A sync sees that the file of the small workspace was changed by another program. -/
theorem solo_sync_reconciles :
    ∃ members, ∃ next : Snapshot, Store.Reconciles (soloDisk "zx") (soloSnapshot 0 0 "x") members
        (Store.Scanned (soloDisk "zx") (soloSnapshot 0 0 "x") members none) next.documents
        ⟨0, 1, 0, 1, 1⟩ ∧
      next.version = 1 := by
  obtain ⟨_, members, next, -, -, hreconciles, -, -, -, hpublished⟩ :=
    sync_reconciles (reachable_solo "zx") rfl (sync_solo [] [0] (by decide))
  exact ⟨members, next, hreconciles, (hpublished (by decide)).2.1⟩

end CodeIntel
