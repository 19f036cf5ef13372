import CodeIntel.Proofs.Disk.Rewriting
import CodeIntel.Proofs.Workspace.Loading

/-! When a full sync finds nothing to do. A snapshot is in step with the disk when its documents are the
source files that the engine lists, with the texts that these files have; exactly then a full sync reports
nothing and publishes nothing. The engine for C# lists the same source files after any files were
rewritten, as long as the descriptor still has its text. -/

namespace CodeIntel

open CodeIntel.Path (ofNames)

/-- The normal forms of the source files that an engine lists for a descriptor. -/
def Engine.Lists (engine : Engine) (disk : Disk) (descriptor : String) (members : List String) : Prop :=
  ∃ solution, engine.loadSolution disk descriptor = .done solution ∧
    solution.memberPaths disk = .ok members

/-- A snapshot has the text of each file that is listed, and no other document. A listed path may lead to
nothing. -/
structure Snapshot.InStep (snapshot : Snapshot) (disk : Disk) (members : List String) : Prop where
  absent : ∀ key ∈ members, snapshot.document? key = none →
    disk.read (Path.join snapshot.root key) = .error .notFound
  present : ∀ key document, snapshot.document? key = some document →
    key ∈ members ∧ disk.read (Path.join snapshot.root key) = .ok document.text.toUTF8

theorem Disk.readSource_of_read {disk : Disk} {path text : String}
    (h : disk.read path = .ok text.toUTF8) : disk.readSource path = .ok (some text) := by
  rw [readSource, h]
  dsimp only
  rw [Text.ofBytes_toUTF8]

theorem Disk.readSource_of_notFound {disk : Disk} {path : String}
    (h : disk.read path = .error .notFound) : disk.readSource path = .ok none := by
  rw [readSource, h]

namespace Store

variable {engine : Engine} {store : Store} {base : Snapshot} {disk : Disk} {members : List String}

/-- Where there is no document and no file, a sync finds nothing to do. -/
theorem finding_of_missing {key : String} (hnone : base.document? key = none)
    (hread : disk.read (Path.join base.root key) = .error .notFound) :
    finding disk base members key = .ok .none := by
  rw [finding, show base.documents.get? key = none from hnone, Disk.readSource_of_notFound hread]
  split <;> rfl

theorem finding_of_unrelated {key : String} (hnot : key ∉ members) (hnone : base.document? key = none) :
    finding disk base members key = .ok .none := by
  rw [finding, show base.documents.get? key = none from hnone, if_pos (by simp [hnot])]

theorem finding_of_kept {key : String} {document : Document} (hmember : key ∈ members)
    (hdocument : base.document? key = some document)
    (hread : disk.read (Path.join base.root key) = .ok document.text.toUTF8) :
    finding disk base members key = .ok .none := by
  rw [finding, show base.documents.get? key = some document from hdocument,
    Disk.readSource_of_read hread]
  simp [hmember, Except.map, Change.of, Document.differsFrom]

theorem finding_of_inStep (h : base.InStep disk members) {key : String}
    (hscanned : Scanned disk base members none key) : finding disk base members key = .ok .none := by
  cases hdocument : base.document? key with
  | none =>
      have hmember : key ∈ members := by
        rcases hscanned with hmember | ⟨document, hsome⟩
        · exact hmember
        · rw [hdocument] at hsome
          cases hsome
      exact finding_of_missing hdocument (h.absent key hmember hdocument)
  | some document =>
      obtain ⟨hmember, hread⟩ := h.present key document hdocument
      exact finding_of_kept hmember hdocument hread

theorem inStep_of_findings
    (h : ∀ key, Scanned disk base members none key → Finds disk base members key .none) :
    base.InStep disk members := by
  constructor
  · intro key hmember hnone
    cases h key (.inl hmember) with
    | unrelated hnot => exact absurd hmember hnot
    | missing _ _ hread => exact hread
    | kept _ hdocument => rw [hnone] at hdocument; cases hdocument
  · intro key document hdocument
    cases h key (.inr ⟨document, hdocument⟩) with
    | unrelated _ hnone => rw [hdocument] at hnone; cases hnone
    | missing _ hnone => rw [hdocument] at hnone; cases hnone
    | kept hmember hsame hread =>
        obtain rfl := Option.some.inj (hdocument.symm.trans hsame)
        exact ⟨hmember, hread⟩

/-- A full sync reports nothing exactly when the published snapshot is in step with the disk. -/
theorem sync_eq_zero_iff (hpublished : store.published = some base) :
    store.sync engine none = (.ok ⟨0, 0, 0, 0, base.version⟩, store) ↔
      ∃ members, engine.Lists store.disk base.descriptor members ∧ base.InStep store.disk members := by
  constructor
  · intro h
    obtain ⟨_, solution, members, hsurveyed, hresult⟩ := sync_eq_ok.mp h
    obtain rfl := Option.some.inj (hpublished.symm.trans hsurveyed.published)
    have hzero : (scan store.disk base members none).2.summed.totalSynced = 0 := by
      rcases hresult with ⟨hzero, -⟩ | ⟨-, projects, -, hreport, -⟩
      · exact hzero
      · exact (congrArg SyncReport.totalSynced hreport).symm
    refine ⟨members, ⟨solution, hsurveyed.loaded, hsurveyed.listed⟩, inStep_of_findings ?_⟩
    intro key hscanned
    obtain ⟨change, hchange⟩ := hsurveyed.findings key hscanned
    have hnone := found_of_totalSynced_eq_zero hzero key (mem_syncScope.mpr hscanned)
    rw [found_of_finding hchange] at hnone
    exact hnone ▸ finds_of_finding hchange
  · rintro ⟨members, ⟨solution, hloaded, hlisted⟩, hstep⟩
    have hfindings : ∀ key, Scanned store.disk base members none key →
        finding store.disk base members key = .ok .none := fun key => finding_of_inStep hstep
    have hscan : scan store.disk base members none = (base.documents, ⟨0, 0, 0, 0, base.version⟩) :=
      afterChanges_of_none
        (fun key hmem => found_of_finding (hfindings key (mem_syncScope.mp hmem))) _
    refine sync_eq_ok.mpr ⟨base, solution, members,
      ⟨hpublished, hloaded, hlisted, fun key hscanned => ⟨_, hfindings key hscanned⟩⟩, ?_⟩
    rw [hscan]
    exact .inl ⟨rfl, rfl, rfl⟩

end Store

/-! ### Listing rewritten files -/

namespace Solution

variable {disk other : Disk} {root : Place} {language : String} {extensions : List String}

/-- Each project that could be loaded can be loaded after files were rewritten, with the same files. -/
theorem loadProjects_of_rewritten (h : disk.Rewritten other) {seen : List String}
    {projects : List ProjectDescriptor} {models : List ProjectModel}
    (hload : loadProjects disk root language extensions seen projects = .ok models) :
    ∃ models', loadProjects other root language extensions seen projects = .ok models' ∧
      ∀ path, path ∈ models'.flatMap ProjectModel.documents ↔
        path ∈ models.flatMap ProjectModel.documents := by
  induction projects generalizing seen models with
  | nil =>
      obtain rfl := Except.ok.inj hload
      exact ⟨[], rfl, fun _ => Iff.rfl⟩
  | cons p rest ih =>
      rw [loadProjects] at hload
      split at hload
      · cases hload
      · rename_i hnew
        obtain ⟨model, hmodel, hload⟩ := bind_eq_ok.mp hload
        obtain ⟨others, hothers, hload⟩ := bind_eq_ok.mp hload
        obtain rfl := Except.ok.inj hload
        obtain ⟨directory, hlocate, hinside, rfl⟩ := loadProject_eq_ok.mp hmodel
        obtain ⟨others', hothers', hfiles⟩ := ih hothers
        rw [loadProjects, if_neg hnew]
        refine ⟨_, bind_eq_ok.mpr ⟨_, loadProject_eq_ok.mpr
          ⟨directory, (h.locate_eq _).trans hlocate, hinside, rfl⟩,
          bind_eq_ok.mpr ⟨others', hothers', rfl⟩⟩, fun path => ?_⟩
        simp only [List.flatMap_cons, List.mem_append, hfiles, List.mem_map, h.sources]

/-- Solutions with the same files have the same members. -/
theorem memberPaths_congr {solution solution' : Solution} {members : List String}
    (h : solution.memberPaths disk = .ok members)
    (hnormal : ∀ path, other.normal? solution'.root path = disk.normal? solution.root path)
    (hfiles : ∀ path, path ∈ solution'.files ↔ path ∈ solution.files) :
    solution'.memberPaths other = .ok members := by
  obtain ⟨hascending, hlisted, hsources⟩ := memberPaths_eq_ok h
  have hmapped : solution'.files.mapM (fun path =>
      (Snapshot.normalPath other solution'.root path).mapError CoordinateError.toError) =
      .ok (solution'.files.map fun path => (other.normal? solution'.root path).getD "") := by
    refine mapM_of_forall _ fun path hpath => Snapshot.normalPath_eq_ok.mpr ?_
    obtain ⟨key, -, hkey⟩ := hlisted path ((hfiles path).mp hpath)
    rw [hnormal, hkey]
    rfl
  have hmembers : solution'.memberPaths other = .ok _ := bind_eq_ok.mpr ⟨_, hmapped, rfl⟩
  obtain ⟨hascending', hlisted', hsources'⟩ := memberPaths_eq_ok hmembers
  refine hmembers.trans (congrArg Except.ok (hascending'.eq_of_mem_iff hascending fun key => ?_))
  constructor
  · intro hkey
    obtain ⟨path, hpath, hkey⟩ := hsources' key hkey
    obtain ⟨key', hmem, hkey'⟩ := hlisted path ((hfiles path).mp hpath)
    rw [← hnormal, hkey] at hkey'
    exact Option.some.inj hkey' ▸ hmem
  · intro hkey
    obtain ⟨path, hpath, hkey⟩ := hsources key hkey
    obtain ⟨key', hmem, hkey'⟩ := hlisted' path ((hfiles path).mpr hpath)
    rw [hnormal, hkey] at hkey'
    exact Option.some.inj hkey' ▸ hmem

end Solution

namespace CSharp

variable {parser : Parser} {disk other : Disk} {path : String} {members : List String}

/-- The file that a descriptor is read from: links are followed first, and the place that they lead to is
opened. -/
def ReadsFrom (disk : Disk) (path : String) (file : Place) : Prop :=
  ∃ place, disk.locate path = .ok place ∧ disk.locate (ofNames place) = .ok file

/-- The engine lists the same source files after files were rewritten, unless the descriptor was. -/
theorem lists_of_rewritten (h : disk.Rewritten other)
    (hlists : (engine parser).Lists disk path members)
    (hkept : ∀ file, ReadsFrom disk path file → other.bareAt file = disk.bareAt file) :
    (engine parser).Lists other path members := by
  obtain ⟨solution, hsolution, hmembers⟩ := hlists
  have hload : Solution.load language extensions disk path = .ok solution :=
    Outcome.ofExcept_eq_done.mp hsolution
  obtain ⟨place, text, descriptor, hplace, hread, hparse, -⟩ := Solution.load_eq_ok hload
  have hread' : other.read (ofNames place) = .ok text.toUTF8 :=
    h.read_of_kept hread fun file hfile => hkept file ⟨place, hplace, hfile⟩
  rw [Solution.load_of_read hplace hread hparse] at hload
  obtain ⟨models, hmodels, hsolution⟩ := map_eq_ok.mp hload
  subst hsolution
  obtain ⟨models', hmodels', hfiles⟩ := Solution.loadProjects_of_rewritten h hmodels
  refine ⟨⟨ofNames place.dropLast, models'⟩, Outcome.ofExcept_eq_done.mpr ?_, ?_⟩
  · rw [Solution.load_of_read ((h.locate_eq path).trans hplace) hread' hparse, hmodels']
    rfl
  · exact Solution.memberPaths_congr hmembers (h.normal?_eq _) hfiles

end CSharp

end CodeIntel
