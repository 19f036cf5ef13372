import CodeIntel.Proofs.Source.Editing
import CodeIntel.Workspace.Store

/-! What each operation of the store does, said once for each: which steps a preparation went through,
when a commit publishes and what, and what a failure leaves behind. Later proofs use these statements
and do not look into the operations again. -/

namespace CodeIntel

theorem Snapshot.normalPath_of_some {disk : Disk} {root path key : String}
    (h : disk.normal? root path = some key) : normalPath disk root path = .ok key := by
  delta normalPath
  rw [h]

theorem Snapshot.normalPath_of_none {disk : Disk} {root path : String}
    (h : disk.normal? root path = none) : normalPath disk root path = .error (.outsideRoot path) := by
  delta normalPath
  rw [h]

theorem Snapshot.normal?_of_normalPath {disk : Disk} {root path key : String}
    (h : normalPath disk root path = .ok key) : disk.normal? root path = some key := by
  cases hnormal : disk.normal? root path with
  | none =>
      rw [normalPath_of_none hnormal] at h
      cases h
  | some normal =>
      rw [normalPath_of_some hnormal] at h
      rw [Except.ok.inj h]

theorem Snapshot.normalPath_eq_ok {disk : Disk} {root path key : String} :
    (normalPath disk root path).mapError CoordinateError.toError = .ok key ↔
      disk.normal? root path = some key := by
  rw [mapError_eq_ok]
  exact ⟨normal?_of_normalPath, normalPath_of_some⟩

/-! ### Solutions of one project -/

section

variable {disk : Disk} {root : String} {project : ProjectModel}

/-- One file is listed under its normal form. -/
theorem Solution.memberPaths_of_single {path key : String} (hfile : project.documents = [path])
    (hkey : disk.normal? root path = some key) :
    Solution.memberPaths disk ⟨root, [project]⟩ = .ok [key] := by
  have hnormal := Snapshot.normalPath_eq_ok.mpr hkey
  refine bind_eq_ok.mpr ⟨[key], ?_, rfl⟩
  rw [List.flatMap_singleton, hfile]
  exact mapM_eq_ok.mpr (.cons hnormal .nil)

/-- One file that can be read is the one document. -/
theorem Disk.readDocuments_of_single {key text : String}
    (h : disk.readSource (Path.join root key) = .ok (some text)) :
    disk.readDocuments root [key] = .ok [(key, ⟨key, text, 0⟩)] := by
  rw [readDocuments, List.foldlM_cons, h]
  rfl

/-- A project in the folder of the root has all documents. -/
theorem Solution.describe_of_root (documents : Keyed Document)
    (h : disk.normal? root project.directory = some "") :
    Solution.describe disk ⟨root, [project]⟩ documents =
      .ok [⟨project.name, project.language, project.references, ".", documents.keys⟩] := by
  have hnormal := Snapshot.normalPath_eq_ok.mpr h
  refine mapM_eq_ok.mpr (.cons (bind_eq_ok.mpr ⟨"", hnormal, ?_⟩) .nil)
  simp [isBelow, pure, Except.pure]

end

theorem CoordinateError.code_ne_internal (error : CoordinateError) :
    error.toError.code ≠ .internal := by
  cases error <;> simp [toError, Error.code]

namespace Store

variable {engine : Engine} {store : Store}

theorem current_eq_ok {snapshot : Snapshot} :
    store.current = .ok snapshot ↔ store.published = some snapshot := by
  unfold current
  cases store.published <;> simp

/-- The workspace that a load finds on a disk, under a number and as of a moment. -/
structure LoadOf (engine : Engine) (store : Store) (id : Nat) (descriptor : String)
    (snapshot : Snapshot) : Prop where
  found : ∃ solution members,
    engine.loadSolution store.disk descriptor = .done solution ∧
    solution.memberPaths store.disk = .ok members ∧
    store.disk.readDocuments solution.root members = .ok snapshot.documents ∧
    solution.describe store.disk snapshot.documents = .ok snapshot.projects ∧
    snapshot.root = solution.root
  id_eq : snapshot.id = id
  version_eq : snapshot.version = 0

theorem loadOf_of_prepareLoad {id : Nat} {descriptor : String} {pending : PendingLoad}
    (h : store.prepareLoad engine id descriptor = .done pending) :
    LoadOf engine store id descriptor pending.snapshot := by
  unfold prepareLoad at h
  split at h
  · obtain ⟨solution, hsolution, h⟩ := Outcome.bind_eq_done.mp h
    rw [Outcome.mapError_eq_done] at hsolution
    rw [Outcome.ofExcept_eq_done] at h
    obtain ⟨members, hmembers, h⟩ := bind_eq_ok.mp h
    obtain ⟨documents, hdocuments, h⟩ := bind_eq_ok.mp h
    obtain ⟨projects, hprojects, h⟩ := bind_eq_ok.mp h
    obtain rfl := Except.ok.inj h
    exact ⟨⟨solution, members, hsolution, hmembers, hdocuments, hprojects, rfl⟩, rfl, rfl⟩
  · cases h

/-- A solution that is there and whose files can be read is loaded. -/
theorem prepareLoad_of_found (store : Store) (id : Nat) {descriptor place : String}
    {solution : Solution} {members : List String} {documents : Keyed Document} {projects : List Project}
    (hexists : store.disk.pathExists descriptor = true)
    (hplace : store.disk.canonical? descriptor = some place)
    (hsolution : engine.loadSolution store.disk descriptor = .done solution)
    (hmembers : solution.memberPaths store.disk = .ok members)
    (hdocuments : store.disk.readDocuments solution.root members = .ok documents)
    (hprojects : solution.describe store.disk documents = .ok projects) :
    store.prepareLoad engine id descriptor =
      .done ⟨⟨id, 0, solution.root, place, projects, documents, store.now⟩⟩ := by
  rw [prepareLoad, if_pos hexists, hplace, hsolution]
  refine Outcome.bind_eq_done.mpr ⟨solution, rfl, Outcome.ofExcept_eq_done.mpr ?_⟩
  exact bind_eq_ok.mpr ⟨members, hmembers, bind_eq_ok.mpr ⟨documents, hdocuments,
    bind_eq_ok.mpr ⟨projects, hprojects, rfl⟩⟩⟩

/-- The snapshot that a sync publishes over its base. -/
def syncedSnapshot (store : Store) (base : Snapshot) (projects : List Project)
    (documents : Keyed Document) : Snapshot :=
  { base with
    version := base.version + 1
    projects
    documents
    publishedAt := store.now }

/-- What working out a sync goes through: from the published snapshot, over the solution as it is now, along
every path. There is something to publish only where something was found. -/
theorem prepareSync_eq_done_iff {paths : Option (List String)} {pending : PendingSync} :
    store.prepareSync engine paths = .done pending ↔
      ∃ base solution members documents counted, store.published = some base ∧
        engine.loadSolution store.disk base.descriptor = .done solution ∧
        solution.memberPaths store.disk = .ok members ∧
        (syncScope store.disk base members paths).foldlM (syncPath store.disk base members)
          (base.documents, ⟨0, 0, 0, 0, base.version⟩) = .ok (documents, counted) ∧
        ((counted.summed.totalSynced = 0 ∧ pending = ⟨base, none, counted.summed⟩) ∨
          (counted.summed.totalSynced ≠ 0 ∧
            ∃ projects, solution.describe store.disk documents = .ok projects ∧
              pending = ⟨base, some (syncedSnapshot store base projects documents), counted.summed⟩)) := by
  rw [prepareSync, Outcome.bind_eq_done]
  constructor
  · rintro ⟨base, hbase, h⟩
    rw [Outcome.ofExcept_eq_done, current_eq_ok] at hbase
    obtain ⟨solution, hsolution, h⟩ := Outcome.bind_eq_done.mp h
    rw [Outcome.mapError_eq_done] at hsolution
    rw [Outcome.ofExcept_eq_done] at h
    obtain ⟨members, hmembers, h⟩ := bind_eq_ok.mp h
    obtain ⟨⟨documents, counted⟩, hscan, h⟩ := bind_eq_ok.mp h
    refine ⟨base, solution, members, documents, counted, hbase, hsolution, hmembers, hscan, ?_⟩
    dsimp only at h
    split at h
    · rename_i hzero
      exact .inl ⟨hzero, (Except.ok.inj h).symm⟩
    · rename_i hsome
      obtain ⟨projects, hprojects, h⟩ := bind_eq_ok.mp h
      exact .inr ⟨hsome, projects, hprojects, (Except.ok.inj h).symm⟩
  · rintro ⟨base, solution, members, documents, counted, hbase, hsolution, hmembers, hscan, hpending⟩
    refine ⟨base, Outcome.ofExcept_eq_done.mpr (current_eq_ok.mpr hbase),
      Outcome.bind_eq_done.mpr ⟨solution, Outcome.mapError_eq_done.mpr hsolution,
        Outcome.ofExcept_eq_done.mpr (bind_eq_ok.mpr ⟨members, hmembers, bind_eq_ok.mpr ⟨_, hscan, ?_⟩⟩)⟩⟩
    rcases hpending with ⟨hzero, rfl⟩ | ⟨hsome, projects, hprojects, rfl⟩
    · exact if_pos hzero
    · exact (if_neg hsome).trans (bind_eq_ok.mpr ⟨projects, hprojects, rfl⟩)

/-- The documents that a sync finds on a disk when it starts from a snapshot. -/
structure SyncOf (engine : Engine) (store : Store) (base successor : Snapshot) : Prop where
  found : ∃ solution members paths start report,
    engine.loadSolution store.disk base.descriptor = .done solution ∧
    solution.memberPaths store.disk = .ok members ∧
    (syncScope store.disk base members paths).foldlM (syncPath store.disk base members)
      (base.documents, start) = .ok (successor.documents, report) ∧
    solution.describe store.disk successor.documents = .ok successor.projects
  id_eq : successor.id = base.id
  version_eq : successor.version = base.version + 1
  root_eq : successor.root = base.root
  descriptor_eq : successor.descriptor = base.descriptor

/-- A prepared sync starts from the published snapshot, and what it is to publish comes from the
disk. -/
theorem syncOf_of_prepareSync {paths : Option (List String)} {pending : PendingSync}
    (h : store.prepareSync engine paths = .done pending) :
    store.published = some pending.base ∧
      ∀ successor, pending.successor = some successor →
        SyncOf engine store pending.base successor := by
  obtain ⟨base, solution, members, documents, counted, hbase, hsolution, hmembers, hscan, hpending⟩ :=
    prepareSync_eq_done_iff.mp h
  rcases hpending with ⟨-, rfl⟩ | ⟨-, projects, hprojects, rfl⟩
  · exact ⟨hbase, fun successor hsuccessor => by cases hsuccessor⟩
  · refine ⟨hbase, fun successor hsuccessor => ?_⟩
    obtain rfl := Option.some.inj hsuccessor
    exact ⟨⟨solution, members, paths, _, counted, hsolution, hmembers, hscan, hprojects⟩, rfl, rfl, rfl, rfl⟩

theorem ensureCurrent_eq_ok {id version : Nat} {snapshot : Snapshot} :
    store.ensureCurrent id version = .ok snapshot ↔
      store.published = some snapshot ∧ snapshot.id = id ∧ snapshot.version = version := by
  unfold ensureCurrent
  rw [bind_eq_ok]
  constructor
  · rintro ⟨found, hfound, h⟩
    rw [current_eq_ok] at hfound
    split at h
    · cases h
    · split at h
      · cases h
      · obtain rfl := Except.ok.inj h
        exact ⟨hfound, by simp_all, by simp_all⟩
  · rintro ⟨hfound, rfl, rfl⟩
    exact ⟨snapshot, current_eq_ok.mpr hfound, by simp [pure, Except.pure]⟩

/-- Where a snapshot is published, a base is refused only because the workspace was loaded anew or
went on to another version. -/
theorem ensureCurrent_eq_error {id version : Nat} {snapshot : Snapshot} {error : Error}
    (hpublished : store.published = some snapshot)
    (h : store.ensureCurrent id version = .error error) :
    (snapshot.id ≠ id ∧ error = .reloaded) ∨
      (snapshot.id = id ∧ snapshot.version ≠ version ∧
        error = .conflict version snapshot.version) := by
  unfold ensureCurrent at h
  rw [bind_eq_error] at h
  rcases h with h | ⟨found, hfound, h⟩
  · rw [current, hpublished] at h
    cases h
  · rw [current_eq_ok, hpublished] at hfound
    obtain rfl := Option.some.inj hfound
    split at h
    · rename_i hid
      exact .inl ⟨hid, (Except.error.inj h).symm⟩
    · split at h
      · rename_i hid hversion
        exact .inr ⟨not_not.mp hid, hversion, (Except.error.inj h).symm⟩
      · cases h

theorem code_of_ensureCurrent {id version : Nat} {error : Error}
    (h : store.ensureCurrent id version = .error error) : error.code ≠ .internal := by
  cases hpublished : store.published with
  | none =>
      rw [ensureCurrent, current, hpublished] at h
      obtain rfl := Except.error.inj h
      simp [Error.code]
  | some snapshot =>
      rcases ensureCurrent_eq_error hpublished h with ⟨-, rfl⟩ | ⟨-, -, rfl⟩
      · simp [Error.code]
      · simp [Error.code]

theorem code_of_grouped {disk : Disk} {root : String} {edits : List DocumentEdit}
    {error : Error} (h : grouped disk root edits = .error error) : error.code ≠ .internal := by
  obtain ⟨groups, edit, -, h⟩ := exists_of_foldlM_eq_error h
  rcases bind_eq_error.mp h with h | ⟨_, -, h⟩
  · obtain ⟨fault, -, rfl⟩ := mapError_eq_error.mp h
    exact fault.code_ne_internal
  · cases h

theorem code_of_edited {snapshot : Snapshot} {groups : Keyed (List TextEdit)}
    {error : Error} (h : edited snapshot groups = .error error) : error.code ≠ .internal := by
  obtain ⟨⟨path, edits⟩, -, h⟩ := exists_of_mapM_eq_error h
  dsimp only at h
  split at h
  · obtain rfl := Except.error.inj h
    exact CoordinateError.code_ne_internal _
  · rcases bind_eq_error.mp h with h | ⟨_, -, h⟩
    · rw [Document.code_of_applyEdits h]
      simp
    · cases h

/-- A commit of a sync that found changes either publishes its successor in place of its base, or
fails for want of that base and changes nothing. -/
theorem commitSync_cases (store : Store) {pending : PendingSync} {successor : Snapshot}
    (hsuccessor : pending.successor = some successor) :
    (∃ old, store.published = some old ∧ old.id = pending.base.id ∧
        old.version = pending.base.version ∧
        store.commitSync pending =
          (.ok { pending.report with version := successor.version }, store.publish successor)) ∨
      ∃ error, store.ensureCurrent pending.base.id pending.base.version = .error error ∧
        store.commitSync pending = (.error error, store) := by
  cases hcurrent : store.ensureCurrent pending.base.id pending.base.version with
  | ok old =>
      obtain ⟨hpublished, hid, hversion⟩ := ensureCurrent_eq_ok.mp hcurrent
      exact .inl ⟨old, hpublished, hid, hversion, by simp [commitSync, hsuccessor, hcurrent]⟩
  | error error => exact .inr ⟨error, rfl, by simp [commitSync, hsuccessor, hcurrent]⟩

@[simp]
theorem writeBack_nil (root : String) (written : List Document) (disk : Disk) :
    writeBack root written disk [] = (.ok (), disk) := rfl

/-- On a disk that writes a file as a whole or not at all a document is written and the rest follows, or the
write is refused and those before it are written as they were. -/
theorem writeBack_cons (root : String) (written : List Document) (disk : Disk)
    (before after : Document) (rest : List (Document × Document)) :
    writeBack root written disk ((before, after) :: rest) =
      match disk.write (Path.join root after.path) after.text.toUTF8 with
      | .ok disk => writeBack root (written ++ [before]) disk rest
      | .error fault =>
        (.error (.internal s!"Failed to write {after.path}: {fault.message}"),
          written.foldl
            (fun disk document => disk.written (Path.join root document.path) document.text.toUTF8)
            disk) := by
  rw [writeBack, writeBackBy, wholeWriter, Disk.written]
  cases disk.write (Path.join root after.path) after.text.toUTF8 <;> rfl

/-- What is not written back is one of the changed documents. -/
theorem exists_of_writeBack_eq_error {root : String} {written : List Document} {disk after : Disk}
    {changed : List (Document × Document)} {error : Error}
    (h : writeBack root written disk changed = (.error error, after)) :
    ∃ pair ∈ changed, ∃ fault : DiskFault,
      error = .internal s!"Failed to write {pair.2.path}: {fault.message}" := by
  induction changed generalizing written disk with
  | nil => cases h
  | cons pair rest ih =>
      rw [writeBack_cons] at h
      split at h
      · obtain ⟨other, hmem, hfault⟩ := ih h
        exact ⟨other, List.mem_cons_of_mem _ hmem, hfault⟩
      · rename_i fault _
        obtain ⟨h, -⟩ := Prod.mk.inj h
        exact ⟨pair, List.mem_cons_self, fault, (Except.error.inj h).symm⟩

/-- The snapshot that follows another one when some of its documents were edited. -/
def successorOf (store : Store) (snapshot : Snapshot) (changed : List (Document × Document)) :
    Snapshot :=
  { snapshot with
    version := snapshot.version + 1
    documents := replaced snapshot.documents changed
    publishedAt := store.now }

section

variable {id version : Nat} {edits : List DocumentEdit} {snapshot : Snapshot}

theorem applyEditsBy_of_misfit {error : Error} (writer : FileWriter)
    (hsome : (edits.all fun edit => edit.edits.isEmpty) = false)
    (hcurrent : store.ensureCurrent id version = .ok snapshot)
    (hmisfit : (grouped store.disk snapshot.root edits >>= edited snapshot) = .error error) :
    store.applyEditsBy writer id version edits = (.error error, store) := by
  rw [applyEditsBy, if_neg (Bool.eq_false_iff.mp hsome), hcurrent]
  rcases bind_eq_error.mp hmisfit with hgroups | ⟨groups, hgroups, hedited⟩
  · simp only [bind, Except.bind, hgroups]
  · simp only [bind, Except.bind, hgroups, hedited]

/-- Edits that fit the published snapshot end as the writing of the changed documents does. -/
theorem applyEditsBy_of_edited {groups : Keyed (List TextEdit)} {changed : List (Document × Document)}
    (writer : FileWriter) (hsome : (edits.all fun edit => edit.edits.isEmpty) = false)
    (hcurrent : store.ensureCurrent id version = .ok snapshot)
    (hgroups : grouped store.disk snapshot.root edits = .ok groups)
    (hchanged : edited snapshot groups = .ok changed) :
    store.applyEditsBy writer id version edits =
      match writeBackBy writer snapshot.root [] store.disk changed with
      | (.error error, disk) => (.error error, { store with disk })
      | (.ok _, disk) =>
        (.ok (snapshot.version + 1),
          { store with disk, published := some (successorOf store snapshot changed) }) := by
  rw [applyEditsBy, if_neg (Bool.eq_false_iff.mp hsome), hcurrent]
  simp only [bind, Except.bind, pure, Except.pure, hgroups, hchanged]
  rfl

theorem applyEdits_of_misfit {error : Error}
    (hsome : (edits.all fun edit => edit.edits.isEmpty) = false)
    (hcurrent : store.ensureCurrent id version = .ok snapshot)
    (hmisfit : (grouped store.disk snapshot.root edits >>= edited snapshot) = .error error) :
    store.applyEdits id version edits = (.error error, store) :=
  applyEditsBy_of_misfit wholeWriter hsome hcurrent hmisfit

theorem applyEdits_of_edited {groups : Keyed (List TextEdit)} {changed : List (Document × Document)}
    (hsome : (edits.all fun edit => edit.edits.isEmpty) = false)
    (hcurrent : store.ensureCurrent id version = .ok snapshot)
    (hgroups : grouped store.disk snapshot.root edits = .ok groups)
    (hchanged : edited snapshot groups = .ok changed) :
    store.applyEdits id version edits =
      match writeBack snapshot.root [] store.disk changed with
      | (.error error, disk) => (.error error, { store with disk })
      | (.ok _, disk) =>
        (.ok (snapshot.version + 1),
          { store with disk, published := some (successorOf store snapshot changed) }) :=
  applyEditsBy_of_edited wholeWriter hsome hcurrent hgroups hchanged

theorem applyEdits_of_written {groups : Keyed (List TextEdit)} {changed : List (Document × Document)}
    {disk : Disk} (hsome : (edits.all fun edit => edit.edits.isEmpty) = false)
    (hcurrent : store.ensureCurrent id version = .ok snapshot)
    (hgroups : grouped store.disk snapshot.root edits = .ok groups)
    (hchanged : edited snapshot groups = .ok changed)
    (hwritten : writeBack snapshot.root [] store.disk changed = (.ok (), disk)) :
    store.applyEdits id version edits =
      (.ok (snapshot.version + 1),
        { store with disk, published := some (successorOf store snapshot changed) }) := by
  rw [applyEdits_of_edited hsome hcurrent hgroups hchanged, hwritten]

end

/-- The ways in which edits can end. They are refused before anything is written, or a write is
refused, or every changed document is written and the successor is published. -/
inductive EditsEnd (store : Store) (id version : Nat) (edits : List DocumentEdit) :
    Except Error Nat × Store → Prop where
  | empty : (edits.all fun edit => edit.edits.isEmpty) = true →
      EditsEnd store id version edits (.error (.invalidArgument "No edits to apply"), store)
  | stale {error : Error} : (edits.all fun edit => edit.edits.isEmpty) = false →
      store.ensureCurrent id version = .error error →
      EditsEnd store id version edits (.error error, store)
  | misfit {error : Error} {snapshot : Snapshot} :
      (edits.all fun edit => edit.edits.isEmpty) = false →
      store.ensureCurrent id version = .ok snapshot →
      (grouped store.disk snapshot.root edits >>= edited snapshot) = .error error →
      EditsEnd store id version edits (.error error, store)
  | unwritten {error : Error} {snapshot : Snapshot} {groups : Keyed (List TextEdit)}
      {changed : List (Document × Document)} {disk : Disk} :
      (edits.all fun edit => edit.edits.isEmpty) = false →
      store.ensureCurrent id version = .ok snapshot →
      grouped store.disk snapshot.root edits = .ok groups → edited snapshot groups = .ok changed →
      writeBack snapshot.root [] store.disk changed = (.error error, disk) →
      EditsEnd store id version edits (.error error, { store with disk })
  | published {snapshot : Snapshot} {groups : Keyed (List TextEdit)}
      {changed : List (Document × Document)} {disk : Disk} :
      (edits.all fun edit => edit.edits.isEmpty) = false →
      store.ensureCurrent id version = .ok snapshot →
      grouped store.disk snapshot.root edits = .ok groups → edited snapshot groups = .ok changed →
      writeBack snapshot.root [] store.disk changed = (.ok (), disk) →
      EditsEnd store id version edits
        (.ok (snapshot.version + 1),
          { store with disk, published := some (successorOf store snapshot changed) })

theorem applyEditsBy_of_empty (writer : FileWriter) (store : Store) (id version : Nat)
    {edits : List DocumentEdit} (hnone : (edits.all fun edit => edit.edits.isEmpty) = true) :
    store.applyEditsBy writer id version edits =
      (.error (.invalidArgument "No edits to apply"), store) := by
  rw [applyEditsBy, if_pos hnone]

theorem applyEditsBy_of_stale (writer : FileWriter) {store : Store} {id version : Nat}
    {edits : List DocumentEdit} {error : Error}
    (hsome : (edits.all fun edit => edit.edits.isEmpty) = false)
    (hcurrent : store.ensureCurrent id version = .error error) :
    store.applyEditsBy writer id version edits = (.error error, store) := by
  rw [applyEditsBy, if_neg (Bool.eq_false_iff.mp hsome), hcurrent]
  rfl

theorem applyEdits_ends (store : Store) (id version : Nat) (edits : List DocumentEdit) :
    EditsEnd store id version edits (store.applyEdits id version edits) := by
  cases hsome : edits.all fun edit => edit.edits.isEmpty with
  | true =>
      rw [applyEdits, applyEditsBy_of_empty wholeWriter store id version hsome]
      exact .empty hsome
  | false =>
      cases hcurrent : store.ensureCurrent id version with
      | error error =>
          rw [applyEdits, applyEditsBy_of_stale wholeWriter hsome hcurrent]
          exact .stale hsome hcurrent
      | ok snapshot =>
          cases hchanged : grouped store.disk snapshot.root edits >>= edited snapshot with
          | error error =>
              rw [applyEdits_of_misfit hsome hcurrent hchanged]
              exact .misfit hsome hcurrent hchanged
          | ok changed =>
              obtain ⟨groups, hgroups, hchanged⟩ := bind_eq_ok.mp hchanged
              rw [applyEdits_of_edited hsome hcurrent hgroups hchanged]
              rcases hwritten : writeBack snapshot.root [] store.disk changed with
                ⟨error | done, disk⟩
              · exact .unwritten hsome hcurrent hgroups hchanged hwritten
              · exact .published hsome hcurrent hgroups hchanged hwritten

/-- Edits that are made fit what is published, and every document that they change is written. -/
theorem exists_of_applyEdits_eq_ok {after : Store} {snapshot : Snapshot} {id version number : Nat}
    {edits : List DocumentEdit} (hpublished : store.published = some snapshot)
    (h : store.applyEdits id version edits = (.ok number, after)) :
    ∃ groups changed disk, (edits.all fun edit => edit.edits.isEmpty) = false ∧
      store.ensureCurrent id version = .ok snapshot ∧
      grouped store.disk snapshot.root edits = .ok groups ∧ edited snapshot groups = .ok changed ∧
      writeBack snapshot.root [] store.disk changed = (.ok (), disk) ∧ number = snapshot.version + 1 ∧
      after = { store with disk, published := some (successorOf store snapshot changed) } := by
  have hends := store.applyEdits_ends id version edits
  rw [h] at hends
  cases hends with
  | published hsome hcurrent hgroups hchanged hwritten =>
      obtain rfl := Option.some.inj (hpublished.symm.trans (ensureCurrent_eq_ok.mp hcurrent).1)
      exact ⟨_, _, _, hsome, hcurrent, hgroups, hchanged, hwritten, rfl, rfl⟩

end Store

end CodeIntel
