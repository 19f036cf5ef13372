import CodeIntel.Proofs.Workspace.Folders
import CodeIntel.Proofs.Workspace.GroupedEdits
import CodeIntel.Proofs.Workspace.Staleness

/-! Documents that no project lists. A load and a sync of everything keep only documents that were found
for a project, and edits keep both documents and projects. A sync of given paths reads the projects anew,
but it looks at these paths only: a document that it does not look at stays, though the folders of the
projects may have left it behind. Apart from a project that has a file for its folder, this is the only
way for a document to be listed by no project. -/

namespace CodeIntel

open World

/-- A step on a disk without links and backslashes. -/
def World.PlainStep (engine : Engine) (world : World) (event : Event) (next : World) : Prop :=
  Step engine world event next ∧ world.store.disk.Plain

/-- A project of a snapshot lists a path or has it for its folder. -/
def Snapshot.Houses (snapshot : Snapshot) (key : String) : Prop :=
  ∃ project ∈ snapshot.projects, key ∈ project.documents ∨ project.directory = key

/-- A sync of some paths keeps a document that it does not look at and that lies in none of the folders
of the projects which it has read. -/
structure Store.Overlooks (engine : Engine) (store : Store) (paths : List String) (pending : PendingSync)
    (successor : Snapshot) (key : String) : Prop where
  restricted : paths ≠ []
  prepared : store.prepareSync engine (some paths) = .done pending
  successor_eq : pending.successor = some successor
  kept : ∃ document, pending.base.document? key = some document ∧
    ∀ given ∈ paths, store.disk.normal? pending.base.root given ≠ some key
  outside : ∀ project ∈ successor.projects, project.contains key = false

/-- In a run a client prepares a sync that overlooks a path. -/
def World.OverlookedBy (engine : Engine) (start : World) (events : List Event) (final : World)
    (successor : Snapshot) (key : String) : Prop :=
  ∃ before world paths pending after, events = before ++ .idle :: after ∧
    Runs (PlainStep engine) start before world ∧
    world.store.Overlooks engine paths pending successor key ∧
    Runs (PlainStep engine) { world with syncs := pending :: world.syncs } after final

/-- A snapshot goes back to another one of the same load, with the same projects. -/
structure Snapshot.GoesBackTo (snapshot earlier : Snapshot) : Prop where
  id_eq : earlier.id = snapshot.id
  version_le : earlier.version ≤ snapshot.version
  projects_eq : earlier.projects = snapshot.projects

/-! ### Loads and syncs -/

namespace Store

variable {parser : CSharp.Parser} {store : Store} {snapshot : Snapshot} {key : String} {document : Document}

theorem LoadOf.houses {id : Nat} {descriptor : String} (hplain : store.disk.Plain)
    (h : LoadOf (CSharp.engine parser) store id descriptor snapshot)
    (hdocument : snapshot.document? key = some document) : snapshot.Houses key := by
  obtain ⟨solution, members, hsolution, hmembers, hdocuments, hprojects, -⟩ := h.found
  obtain ⟨place, text, parsed, -, -, -, hfrom⟩ :=
    Solution.readFrom_of_load hplain.tidy hplain.linkFree hsolution hmembers
  exact hfrom.listed_or_folder hplain hprojects (Disk.mem_of_readDocuments hdocuments hdocument).1
    (Keyed.mem_keys.mpr ⟨document, hdocument⟩)

/-- Only a sync of other paths does not look at a document. -/
theorem unscanned {disk : Disk} {base : Snapshot} {members : List String} {paths : Option (List String)}
    (h : ¬ Scanned disk base members paths key) (hdocument : base.document? key = some document)
    (hkey : key ≠ "") :
    ∃ given, paths = some given ∧ given ≠ [] ∧ ∀ path ∈ given, disk.normal? base.root path ≠ some key := by
  rcases paths with _ | _ | ⟨path, rest⟩
  · exact absurd (.inr ⟨document, hdocument⟩) h
  · exact absurd (.inr ⟨document, hdocument⟩) h
  · exact ⟨_, rfl, List.cons_ne_nil _ _, fun given hgiven hnormal => h ⟨hkey, given, hgiven, hnormal⟩⟩

/-- What a sync has looked at is housed; the rest may have been overlooked. -/
theorem houses_or_overlooks {paths : Option (List String)} {pending : PendingSync}
    (hplain : store.disk.Plain) (hfiled : ∀ base, store.published = some base → Filed base.documents)
    (h : store.prepareSync (CSharp.engine parser) paths = .done pending)
    (hsuccessor : pending.successor = some snapshot)
    (hdocument : snapshot.document? key = some document) :
    snapshot.Houses key ∨ ∃ given, paths = some given ∧
      store.Overlooks (CSharp.engine parser) given pending snapshot key := by
  obtain ⟨base, solution, members, hsurveyed, hpending⟩ := prepareSync_eq_done.mp h
  dsimp only at hpending
  rcases hpending with ⟨-, rfl⟩ | ⟨-, projects, hprojects, rfl⟩
  · cases hsuccessor
  · obtain rfl := Option.some.inj hsuccessor
    obtain ⟨place, text, parsed, -, -, -, hfrom⟩ :=
      Solution.readFrom_of_load hplain.tidy hplain.linkFree hsurveyed.loaded hsurveyed.listed
    have hkey : key ∈ (scan store.disk base members paths).1.keys :=
      Keyed.mem_keys.mpr ⟨document, hdocument⟩
    rcases get?_scan hsurveyed.findings key with ⟨change, -, -, hfinds, hget⟩ | ⟨hunseen, hget⟩
    · have hmember := (hfinds.exists_iff.mp ⟨document, hget.symm.trans hdocument⟩).1
      exact .inl (hfrom.listed_or_folder hplain hprojects hmember hkey)
    · have hold : base.document? key = some document := hget.symm.trans hdocument
      by_cases hlisted : ∃ project ∈ projects, project.contains key = true
      · obtain ⟨project, hmem, hcontains⟩ := hlisted
        refine .inl ⟨project, hmem, .inl ?_⟩
        rw [Solution.documents_of_describe hprojects project hmem]
        exact List.mem_filter.mpr ⟨hkey, hcontains⟩
      · push Not at hlisted
        have hnamed := (hfiled base hsurveyed.published).named key document (Keyed.mem_of_get? hold)
        obtain ⟨given, rfl, hsome, hothers⟩ := unscanned hunseen hold hnamed.2.segments.1
        exact .inr ⟨given, rfl, hsome, h, rfl, ⟨document, hold, hothers⟩,
          fun project hmem => eq_false_of_ne_true (hlisted project hmem)⟩

/-- An overlooked document is listed by none of the projects that were read. -/
theorem Overlooks.notMem {engine : Engine} {paths : List String} {pending : PendingSync}
    {project : Project} (h : store.Overlooks engine paths pending snapshot key)
    (hproject : project ∈ snapshot.projects) : key ∉ project.documents := by
  have hsuccessor := h.successor_eq
  obtain ⟨base, solution, members, -, hpending⟩ := prepareSync_eq_done.mp h.prepared
  dsimp only at hpending
  rcases hpending with ⟨-, rfl⟩ | ⟨-, projects, hprojects, rfl⟩
  · cases hsuccessor
  · obtain rfl := Option.some.inj hsuccessor
    rw [Solution.documents_of_describe hprojects project hproject]
    intro hmem
    have hinside := (List.mem_filter.mp hmem).2
    rw [h.outside project hproject] at hinside
    cases hinside

end Store

/-! ### Runs -/

section

variable {engine : Engine} {start world next : World} {events : List Event} {event : Event}
  {snapshot : Snapshot} {key : String}

theorem World.Runs.of_plain {final : World} (h : Runs (PlainStep engine) start events final) :
    Runs (Step engine) start events final := by
  induction h with
  | nil => exact .nil
  | snoc _ hstep ih => exact .snoc ih hstep.1

theorem World.Step.mem_loads (hstep : Step engine world event next) {pending : PendingLoad}
    (hmem : pending ∈ next.loads) :
    pending ∈ world.loads ∨ ∃ id descriptor, world.store.prepareLoad engine id descriptor = .done pending := by
  cases hstep with
  | disturb | tick | failLoad | prepareSync | failSync | commitUnchanged | commitSync | applyEdits =>
      exact .inl hmem
  | commitLoad => exact .inl (List.mem_of_mem_erase hmem)
  | prepareLoad _ hprepare =>
      rcases List.mem_cons.mp hmem with rfl | hmem
      · exact .inr ⟨_, _, hprepare⟩
      · exact .inl hmem

/-- What a step publishes was there before, or edits made it from what was published. -/
theorem World.Step.published_cases (hstep : Step engine world event next)
    (hpublished : next.store.published = some snapshot) :
    world.Holds snapshot ∨ ∃ base groups changed, world.store.published = some base ∧ groups.Ascending ∧
      Store.edited base groups = .ok changed ∧ snapshot = Store.successorOf world.store base changed := by
  cases hstep with
  | disturb | tick | failLoad | failSync | prepareLoad | prepareSync => exact .inl (.inl hpublished)
  | commitLoad hmem => exact .inl (.inr (.inl ⟨_, hmem, Option.some.inj hpublished⟩))
  | commitUnchanged _ hnone =>
      rw [Store.commitSync, hnone] at hpublished
      exact .inl (.inl hpublished)
  | commitSync hmem hsuccessor =>
      rcases world.store.commitSync_cases hsuccessor with ⟨_, -, -, -, hcommit⟩ | ⟨_, -, hcommit⟩
      · rw [hcommit] at hpublished
        exact .inl (.inr (.inr ⟨_, hmem, hsuccessor.trans hpublished⟩))
      · rw [hcommit] at hpublished
        exact .inl (.inl hpublished)
  | applyEdits id version edits =>
      have hends := world.store.applyEdits_ends id version edits
      generalize world.store.applyEdits id version edits = result at hpublished hends
      cases hends with
      | empty | stale | misfit | unwritten => exact .inl (.inl hpublished)
      | published _ hcurrent hgroups hchanged _ =>
          exact .inr ⟨_, _, _, (Store.ensureCurrent_eq_ok.mp hcurrent).1, Store.grouped_ascending hgroups,
            hchanged, (Option.some.inj hpublished).symm⟩

theorem World.OverlookedBy.snoc {successor : Snapshot}
    (h : OverlookedBy engine start events world successor key) (hstep : PlainStep engine world event next) :
    OverlookedBy engine start (events ++ [event]) next successor key := by
  obtain ⟨before, middle, paths, pending, after, rfl, hbefore, hoverlooks, hafter⟩ := h
  exact ⟨before, middle, paths, pending, after ++ [event], by simp, hbefore, hoverlooks, hafter.snoc hstep⟩

/-- All documents of a snapshot are housed, or a sync overlooked them that is the snapshot itself or was
published for it to go back to. -/
def World.Explained (engine : Engine) (start : World) (events : List Event) (final : World)
    (snapshot : Snapshot) : Prop :=
  ∀ key document, snapshot.document? key = some document →
    snapshot.Houses key ∨ ∃ successor, OverlookedBy engine start events final successor key ∧
      snapshot.GoesBackTo successor ∧ (successor = snapshot ∨ successor ∈ publications events)

theorem World.Explained.snoc (h : Explained engine start events world snapshot)
    (hstep : PlainStep engine world event next) :
    Explained engine start (events ++ [event]) next snapshot := by
  intro key document hdocument
  refine (h key document hdocument).imp_right ?_
  rintro ⟨successor, hoverlooked, hback, hsource⟩
  exact ⟨successor, hoverlooked.snoc hstep, hback,
    hsource.imp_right fun hmem => publications_subset_append _ _ hmem⟩

/-- Edits change neither the projects nor the paths of the documents. -/
theorem World.Explained.edited {base : Snapshot} {groups : Keyed (List TextEdit)}
    {changed : List (Document × Document)} (h : Explained engine start events world base)
    (hpublished : base ∈ publications events) (hfiled : Filed base.documents) (hgroups : groups.Ascending)
    (hchanged : Store.edited base groups = .ok changed) (store : Store) :
    Explained engine start events world (Store.successorOf store base changed) := by
  intro key document hdocument
  have hkeys := (Store.rewrites_of_edited hfiled hgroups hchanged).keys_replaced hfiled.ascending
  have hkey : key ∈ (Store.replaced base.documents changed).keys := Keyed.mem_keys.mpr ⟨document, hdocument⟩
  rw [hkeys] at hkey
  obtain ⟨old, hold⟩ := Keyed.mem_keys.mp hkey
  refine (h key old hold).imp_right ?_
  rintro ⟨successor, hoverlooked, ⟨hid, hversion, hprojects⟩, hsource⟩
  refine ⟨successor, hoverlooked, ⟨hid, Nat.le_succ_of_le hversion, hprojects⟩, .inr ?_⟩
  rcases hsource with rfl | hmem
  · exact hpublished
  · exact hmem

end

section

variable {parser : CSharp.Parser} {disk : Disk} {now : String} {world next : World} {events : List Event}
  {event : Event}

theorem World.explained_step
    (hrun : Runs (PlainStep (CSharp.engine parser)) (World.initial disk now) events world)
    (h : ∀ snapshot, world.Holds snapshot →
      Explained (CSharp.engine parser) (World.initial disk now) events world snapshot)
    (hstep : PlainStep (CSharp.engine parser) world event next) :
    ∀ snapshot, next.Holds snapshot →
      Explained (CSharp.engine parser) (World.initial disk now) (events ++ [event]) next snapshot := by
  have hwell := hrun.of_plain.allWellFormed
  have horder := InOrder.of_runs hrun.of_plain
  rintro snapshot (hpublished | ⟨pending, hmem, rfl⟩ | ⟨pending, hmem, hsuccessor⟩)
  · rcases hstep.1.published_cases hpublished with hheld | ⟨base, groups, changed, hbase, hgroups, hchanged, rfl⟩
    · exact (h snapshot hheld).snoc hstep
    · exact ((h base (.inl hbase)).edited (horder.mem_of_published hbase) (hwell base (.inl hbase)).filed
        hgroups hchanged _).snoc hstep
  · rcases hstep.1.mem_loads hmem with hheld | ⟨id, descriptor, hprepare⟩
    · exact (h _ (.inr (.inl ⟨pending, hheld, rfl⟩))).snoc hstep
    · exact fun key document hdocument =>
        .inl ((Store.loadOf_of_prepareLoad hprepare).houses hstep.2 hdocument)
  · rcases hstep.1.mem_syncs hmem with hheld | ⟨rfl, rfl, paths, hprepare⟩
    · exact (h snapshot (.inr (.inr ⟨pending, hheld, hsuccessor⟩))).snoc hstep
    · intro key document hdocument
      refine (Store.houses_or_overlooks hstep.2 (fun base hbase => (hwell base (.inl hbase)).filed) hprepare
        hsuccessor hdocument).imp_right ?_
      rintro ⟨given, -, hoverlooks⟩
      exact ⟨snapshot, ⟨events, world, given, pending, [], rfl, hrun, hoverlooks, .nil⟩,
        ⟨rfl, Nat.le_refl _, rfl⟩, .inl rfl⟩

/-- All that is published or held for publication in a run is explained. -/
theorem World.Runs.explained
    (hrun : Runs (PlainStep (CSharp.engine parser)) (World.initial disk now) events world) :
    ∀ snapshot, world.Holds snapshot →
      Explained (CSharp.engine parser) (World.initial disk now) events world snapshot := by
  induction hrun with
  | nil => rintro snapshot (hnone | ⟨_, hmem, -⟩ | ⟨_, hmem, -⟩) <;> contradiction
  | snoc hbefore hstep ih => exact explained_step hbefore ih hstep

/-- In a run on disks without links and backslashes let a snapshot be published. Apart from a document
that is the folder of a project itself, a document is listed by a project exactly when no sync of some
paths overlooked it that was published in the run and that the snapshot goes back to. -/
theorem documents_listed_unless_overlooked
    (hrun : Runs (PlainStep (CSharp.engine parser)) (World.initial disk now) events world)
    {snapshot : Snapshot} (hpublished : world.store.published = some snapshot) {key : String}
    {document : Document} (hdocument : snapshot.document? key = some document)
    (hfolder : ∀ project ∈ snapshot.projects, project.directory ≠ key) :
    (∃ project ∈ snapshot.projects, key ∈ project.documents) ↔
      ¬ ∃ successor ∈ publications events, snapshot.GoesBackTo successor ∧
        OverlookedBy (CSharp.engine parser) (World.initial disk now) events world successor key := by
  constructor
  · rintro ⟨project, hproject, hlisted⟩ ⟨successor, -, hback, before, middle, paths, pending, after, -, -,
      hoverlooks, -⟩
    rw [← hback.projects_eq] at hproject
    exact hoverlooks.notMem hproject hlisted
  · intro hnone
    rcases hrun.explained snapshot (.inl hpublished) key document hdocument with
      ⟨project, hproject, hlisted | hhere⟩ | ⟨successor, hoverlooked, hback, hsource⟩
    · exact ⟨project, hproject, hlisted⟩
    · exact absurd hhere (hfolder project hproject)
    · refine absurd ⟨successor, ?_, hback, hoverlooked⟩ hnone
      rcases hsource with rfl | hmem
      · exact (InOrder.of_runs hrun.of_plain).mem_of_published hpublished
      · exact hmem

end

/-! ### A document that a restricted sync leaves behind -/

/-- A disk with a descriptor and two sources. -/
def pairDisk (text : String) : Disk := flatDisk [("d", text), ("a.cs", "x"), ("b.cs", "x")]

/-- The sources as they are loaded. -/
def pairDocuments : Keyed Document := [("a.cs", ⟨"a.cs", "x", 0⟩), ("b.cs", ⟨"b.cs", "x", 0⟩)]

/-- What a load publishes while the descriptor names a project. -/
def pairSnapshot : Snapshot := flatSnapshot 0 "d" "P" pairDocuments

/-- What a sync of the first source publishes when the descriptor names none any more. -/
def orphanSnapshot : Snapshot := ⟨0, 1, "/", "/d", [], [("b.cs", ⟨"b.cs", "x", 0⟩)], ""⟩

/-- That sync. -/
def orphanSync : PendingSync := ⟨pairSnapshot, some orphanSnapshot, ⟨0, 0, 1, 1, 0⟩⟩

section

variable (text : String)

theorem tidy_pairDisk : (pairDisk text).Tidy := by
  refine tidy_flatDisk (by simp) ?_
  have hname : ∀ name ∈ ["d", "a.cs", "b.cs"], Disk.CanName name := by
    simp only [List.forall_mem_cons]
    exact ⟨canName_d, ⟨by simp [Path.IsName], by decide, by decide⟩,
      ⟨by simp [Path.IsName], by decide, by decide⟩, by simp⟩
  exact fun file hmem => hname file.1 (List.mem_map_of_mem (f := Prod.fst) hmem)

theorem plain_pairDisk : (pairDisk text).Plain :=
  plain_flatDisk (tidy_pairDisk text) (by simp)

theorem sources_pairDisk : (pairDisk text).sources CSharp.extensions [] = [["a.cs"], ["b.cs"]] := by
  have hroot : (pairDisk text).top.find? [] = some (pairDisk text).top := rfl
  have hfiles : (pairDisk text).top.files = [["d"], ["a.cs"], ["b.cs"]] := rfl
  have hfiltered : [["d"], ["a.cs"], ["b.cs"]].filter
      (fun place => Path.hasExtension CSharp.extensions (Path.ofNames place)) = [["a.cs"], ["b.cs"]] := by
    decide
  simp only [Disk.sources, hroot, hfiles, List.map_id', List.nil_append]
  rw [hfiltered]
  exact List.mergeSort_of_pairwise (by decide)

theorem normal?_pairDisk {name : String} (h : name = "a.cs" ∨ name = "b.cs") :
    (pairDisk text).normal? "/" name = some name ∧
      (pairDisk text).normal? "/" (Path.ofNames [name]) = some name := by
  have hnames : ∀ other ∈ [name], Path.IsName other := by
    rcases h with rfl | rfl <;> simp [Path.IsName]
  have hslash : '\\' ∉ (Path.ofRelative [name]).toList := by
    rcases h with rfl | rfl <;> decide
  have hfind : (pairDisk text).top.find? ([] ++ [name]) = some (.file "x".toUTF8) := by
    rcases h with rfl | rfl <;> rfl
  have hroot : Path.ofNames [] = "/" := by decide
  have hkey : Path.ofRelative [name] = name := String.intercalate_singleton
  have hshort := (pairDisk text).normal?_ofRelative "/" [name] hnames hslash
  have hfull := (plain_pairDisk text).normal?_ofNames hfind
  rw [hkey] at hshort hfull
  rw [List.nil_append, hroot] at hfull
  exact ⟨hshort, hfull⟩

theorem readSource_pairDisk {name : String} (h : name = "a.cs" ∨ name = "b.cs") :
    (pairDisk text).readSource (Path.join "/" name) = .ok (some "x") := by
  refine Disk.readSource_of_read ?_
  rcases h with rfl | rfl
  · exact read_flatDisk (tidy_pairDisk text) rfl (by cbv)
  · exact read_flatDisk (tidy_pairDisk text) rfl (by cbv)

theorem memberPaths_pairDisk :
    Solution.memberPaths (pairDisk text)
      ⟨"/", [⟨"P", "csharp", [], "/", [["a.cs"], ["b.cs"]].map Path.ofNames⟩]⟩ = .ok ["a.cs", "b.cs"] := by
  have hnormal : ["/a.cs", "/b.cs"].mapM (fun path =>
      (Snapshot.normalPath (pairDisk text) "/" path).mapError CoordinateError.toError) =
      .ok ["a.cs", "b.cs"] :=
    mapM_eq_ok.mpr (.cons (Snapshot.normalPath_eq_ok.mpr (normal?_pairDisk text (.inl rfl)).2)
      (.cons (Snapshot.normalPath_eq_ok.mpr (normal?_pairDisk text (.inr rfl)).2) .nil))
  have hsorted : ascending ["a.cs", "b.cs"] = ["a.cs", "b.cs"] := by decide
  exact bind_eq_ok.mpr ⟨_, hnormal, congrArg Except.ok hsorted⟩

theorem readDocuments_pairDisk :
    (pairDisk text).readDocuments "/" ["a.cs", "b.cs"] = .ok pairDocuments := by
  rw [Disk.readDocuments, List.foldlM_cons, readSource_pairDisk text (.inl rfl)]
  have hinsert : Keyed.insert [("a.cs", ⟨"a.cs", "x", 0⟩)] "b.cs" ⟨"b.cs", "x", 0⟩ = pairDocuments := by
    decide
  change (List.foldlM _ _ _) = _
  rw [List.foldlM_cons, readSource_pairDisk text (.inr rfl)]
  exact congrArg Except.ok hinsert

end

section

variable {text : String} (hparse : Descriptor.parse text = .ok ⟨[⟨"P", ".", none, []⟩]⟩)

include hparse in
theorem prepareLoad_pairDisk (parser : CSharp.Parser) :
    Store.prepareLoad (CSharp.engine parser) { disk := pairDisk text } 0 (Path.ofNames ["d"]) =
      .done ⟨pairSnapshot⟩ :=
  prepareLoad_flatDisk (tidy_pairDisk text) rfl (by cbv) hparse 0 (sources_pairDisk text)
    (memberPaths_pairDisk text) (readDocuments_pairDisk text)

variable {new : String} (hempty : Descriptor.parse new = .ok ⟨[]⟩)

include hempty in
theorem prepareSync_pairDisk (parser : CSharp.Parser) :
    Store.prepareSync (CSharp.engine parser) { disk := pairDisk new, published := some pairSnapshot }
      (some ["a.cs"]) = .done orphanSync := by
  have hsolution : (CSharp.engine parser).loadSolution (pairDisk new) (Path.ofNames ["d"]) =
      .done ⟨"/", []⟩ := loadSolution_flatDisk_of_empty (tidy_pairDisk new) rfl (by cbv) hempty
  have hfinding : Store.finding (pairDisk new) pairSnapshot [] "a.cs" = .ok .removed := by
    have hexisting : pairSnapshot.documents.get? "a.cs" = some ⟨"a.cs", "x", 0⟩ := by decide
    have hsource : (pairDisk new).readSource (Path.join pairSnapshot.root "a.cs") = .ok (some "x") :=
      readSource_pairDisk new (.inl rfl)
    rw [Store.finding, hexisting, hsource]
    simp [Except.map, Change.of]
  have hscope : Store.syncScope (pairDisk new) pairSnapshot [] (some ["a.cs"]) = ["a.cs"] := by
    have hnormal : (pairDisk new).normal? pairSnapshot.root "a.cs" = some "a.cs" :=
      (normal?_pairDisk new (.inl rfl)).1
    rw [Store.syncScope]
    simp only [List.filterMap_cons, hnormal]
    change ascending ["a.cs"] = ["a.cs"]
    decide
  have hscan : Store.scan (pairDisk new) pairSnapshot [] (some ["a.cs"]) =
      ([("b.cs", ⟨"b.cs", "x", 0⟩)], ⟨0, 0, 1, 0, 0⟩) := by
    rw [Store.scan, hscope, Store.afterChanges, List.foldl_cons, Store.found_of_finding hfinding]
    simp [pairSnapshot, flatSnapshot, pairDocuments, Change.applyTo, Keyed.erase, SyncReport.count]
  refine Store.prepareSync_eq_done.mpr ⟨pairSnapshot, ⟨"/", []⟩, [],
    ⟨rfl, hsolution, rfl, fun key hkey => ⟨.removed, ?_⟩⟩, ?_⟩
  · rw [← Store.mem_syncScope] at hkey
    obtain rfl : key = "a.cs" := List.mem_singleton.mp (hscope ▸ hkey)
    exact hfinding
  · have hdisk : (Store.mk (pairDisk new) (some pairSnapshot) 0 "").disk = pairDisk new := rfl
    rw [hdisk, hscan]
    exact .inr ⟨by decide, [], rfl, rfl⟩

/-- The folder is loaded, the project is taken out of the descriptor, and a sync of the first source is
committed. -/
def orphanEvents : List Event :=
  [.prepared pairSnapshot, .loaded pairSnapshot, .disturbed, .idle, .synced pairSnapshot (.ok orphanSnapshot)]

include hparse hempty in
theorem runs_orphanEvents (parser : CSharp.Parser) :
    Runs (PlainStep (CSharp.engine parser)) (World.initial (pairDisk text) "") orphanEvents
      { store := { disk := pairDisk new, published := some orphanSnapshot }, drawn := [0] } := by
  have hplain := plain_pairDisk text
  have hloaded : Runs (PlainStep (CSharp.engine parser)) (World.initial (pairDisk text) "")
      [.prepared pairSnapshot, .loaded pairSnapshot]
      { store := { disk := pairDisk text, published := some pairSnapshot }, drawn := [0] } :=
    (Runs.nil.snoc ⟨.prepareLoad List.not_mem_nil (prepareLoad_pairDisk hparse parser), hplain⟩).snoc
      ⟨.commitLoad List.mem_cons_self, hplain⟩
  have hsynced : Runs (PlainStep (CSharp.engine parser)) (World.initial (pairDisk text) "")
      [.prepared pairSnapshot, .loaded pairSnapshot, .disturbed, .idle]
      { store := { disk := pairDisk new, published := some pairSnapshot }, syncs := [orphanSync],
        drawn := [0] } :=
    (hloaded.snoc ⟨.disturb _ (pairDisk new), hplain⟩).snoc
      ⟨.prepareSync (prepareSync_pairDisk hempty parser), plain_pairDisk new⟩
  have hcommit : Step (CSharp.engine parser)
      { store := { disk := pairDisk new, published := some pairSnapshot }, syncs := [orphanSync],
        drawn := [0] } _ _ :=
    .commitSync List.mem_cons_self (show orphanSync.successor = some orphanSnapshot from rfl)
  exact hsynced.snoc ⟨hcommit, plain_pairDisk new⟩

end

/-- The second source is listed by no project, since the sync of the first one overlooked it. -/
theorem second_source_overlooked :
    ∃ successor ∈ publications orphanEvents, orphanSnapshot.GoesBackTo successor ∧
      OverlookedBy (CSharp.engine fun _ => none) (World.initial (pairDisk (projectText "P")) "") orphanEvents
        { store := { disk := pairDisk emptyText, published := some orphanSnapshot }, drawn := [0] }
        successor "b.cs" := by
  have hparse : Descriptor.parse (projectText "P") = .ok ⟨[⟨"P", ".", none, []⟩]⟩ :=
    parse_projectText (.inl rfl)
  have hempty : Descriptor.parse emptyText = .ok ⟨[]⟩ := parse_of_ofText (by decide +kernel)
  generalize projectText "P" = text at *
  generalize emptyText = new at *
  have hdocument : orphanSnapshot.document? "b.cs" = some ⟨"b.cs", "x", 0⟩ := rfl
  have hiff := documents_listed_unless_overlooked (runs_orphanEvents hparse hempty fun _ => none) rfl
    hdocument fun project hproject => by (cases hproject)
  refine not_not.mp fun hnone => ?_
  obtain ⟨project, hproject, -⟩ := hiff.mpr hnone
  cases hproject

/-- Not every document of what is published is listed by a project. -/
theorem document_listed_by_no_project :
    ¬ ∀ (disk : Disk) (now : String) (events : List Event) (world : World) (snapshot : Snapshot)
      (key : String) (document : Document),
      Runs (PlainStep (CSharp.engine fun _ => none)) (World.initial disk now) events world →
      world.store.published = some snapshot → snapshot.document? key = some document →
      ∃ project ∈ snapshot.projects, key ∈ project.documents := by
  intro hall
  have hparse : Descriptor.parse (projectText "P") = .ok ⟨[⟨"P", ".", none, []⟩]⟩ :=
    parse_projectText (.inl rfl)
  have hempty : Descriptor.parse emptyText = .ok ⟨[]⟩ := parse_of_ofText (by decide +kernel)
  generalize projectText "P" = text at *
  generalize emptyText = new at *
  obtain ⟨project, hproject, -⟩ :=
    hall _ _ _ _ orphanSnapshot "b.cs" _ (runs_orphanEvents hparse hempty fun _ => none) rfl rfl
  cases hproject

end CodeIntel
