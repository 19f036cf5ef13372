import CodeIntel.Proofs.Workspace.Loading

/-! A full sync beside a load of the same descriptor on the same disk. Both read the same source files, so
that a sync ends with the same texts under the same paths. It also looks at the documents that are no
source files any more, which a load does not. The projects are described anew only when a document has
changed; otherwise nothing is published and the old ones stay. -/

namespace CodeIntel

open World
open CodeIntel.Path (ofNames)

theorem Solution.describe_congr {disk : Disk} {solution : Solution} {documents others : Keyed Document}
    (h : documents.keys = others.keys) :
    solution.describe disk documents = solution.describe disk others := by
  rw [describe, describe, h]

/-- A load that succeeds tells what a sync finds at a member. -/
theorem Disk.documentAt?_of_readSource {disk : Disk} {root key : String} {onDisk : Option String}
    (h : disk.readSource (Path.join root key) = .ok onDisk) :
    (disk.documentAt? root key).map Document.text = onDisk := by
  rw [documentAt?, h]
  cases onDisk <;> rfl

namespace Store

variable {engine : Engine} {store : Store} {base : Snapshot} {solution : Solution}
  {members : List String} {documents : Keyed Document}

/-- A full sync can look at all members when a load can, and at all other documents when these can be
read or are gone. -/
theorem surveyed_of_readDocuments (hpublished : store.published = some base)
    (hloaded : engine.loadSolution store.disk base.descriptor = .done solution)
    (hlisted : solution.memberPaths store.disk = .ok members)
    (hdocuments : store.disk.readDocuments base.root members = .ok documents)
    (hreadable : ∀ key document, base.document? key = some document → documents.get? key = none →
      ∃ onDisk, store.disk.readSource (Path.join base.root key) = .ok onDisk) :
    Surveyed engine store none base solution members := by
  obtain ⟨hreads, hget⟩ := Disk.readDocuments_eq_ok hdocuments
  refine ⟨hpublished, hloaded, hlisted, fun key hscanned => ?_⟩
  have hread : ∃ onDisk, store.disk.readSource (Path.join base.root key) = .ok onDisk := by
    by_cases hmember : key ∈ members
    · exact hreads key hmember
    · obtain ⟨document, hdocument⟩ := hscanned.resolve_left hmember
      exact hreadable key document hdocument ((hget key).trans (if_neg hmember))
  obtain ⟨onDisk, honDisk⟩ := hread
  rw [finding, honDisk]
  split
  · exact ⟨_, rfl⟩
  · exact ⟨_, rfl⟩

/-- After a full sync the texts are those that a load would read. -/
theorem text_scan (hascending : base.documents.Ascending)
    (hsurveyed : Surveyed engine store none base solution members)
    (hdocuments : store.disk.readDocuments base.root members = .ok documents) (key : String) :
    ((scan store.disk base members none).1.get? key).map Document.text =
      (documents.get? key).map Document.text := by
  obtain ⟨hreads, hget⟩ := Disk.readDocuments_eq_ok hdocuments
  have hreconciles := reconciles_scan hsurveyed.findings hascending
  by_cases hmember : key ∈ members
  · have hscanned : Scanned store.disk base members none key := .inl hmember
    obtain ⟨onDisk, honDisk⟩ := hreads key hmember
    rw [hget, if_pos hmember, Disk.documentAt?_of_readSource honDisk]
    cases onDisk with
    | none =>
        have hmissing := Disk.read_of_readSource_none honDisk
        cases hfound : (scan store.disk base members none).1.get? key with
        | none => rfl
        | some document =>
            have hread := hreconciles.read_eq key document hscanned hfound
            rw [hmissing] at hread
            cases hread
    | some text =>
        have hread := Disk.read_of_readSource honDisk
        obtain ⟨document, hdocument⟩ := (hreconciles.exists_iff key hscanned).mpr ⟨hmember, _, hread⟩
        have hsame := hreconciles.read_eq key document hscanned hdocument
        rw [hdocument, Option.map_some,
          String.toByteArray_inj.mp (Except.ok.inj (hsame.symm.trans hread))]
  · have hnone : (scan store.disk base members none).1.get? key = none := by
      by_cases hscanned : Scanned store.disk base members none key
      · rw [Option.eq_none_iff_forall_ne_some]
        exact fun document hdocument =>
          hmember ((hreconciles.exists_iff key hscanned).mp ⟨document, hdocument⟩).1
      · rw [hreconciles.unscanned key hscanned, Option.eq_none_iff_forall_ne_some]
        exact fun document hdocument => hscanned (.inr ⟨document, hdocument⟩)
    rw [hnone, hget, if_neg hmember]

theorem keys_scan (hascending : base.documents.Ascending) (hascending' : documents.Ascending)
    (hsurveyed : Surveyed engine store none base solution members)
    (hdocuments : store.disk.readDocuments base.root members = .ok documents) :
    (scan store.disk base members none).1.keys = documents.keys := by
  refine (ascending_afterChanges hascending _ _ _ _).keys_eq hascending' fun key => ?_
  have htext := congrArg Option.isSome (text_scan hascending hsurveyed hdocuments key)
  rw [Option.isSome_map, Option.isSome_map] at htext
  rw [Keyed.mem_keys, Keyed.mem_keys, ← Option.isSome_iff_exists, ← Option.isSome_iff_exists]
  exact iff_of_eq (congrArg (· = true) htext)

end Store

/-- Where a load of its descriptor would succeed with the same root, and each document that the load would
not have can be read or is gone, a full sync succeeds. It ends with the texts that the load would read,
and with its projects too if any document has changed; if none has, nothing is published. -/
theorem full_sync_as_load {engine : Engine} {world : World} {base : Snapshot} {id : Nat}
    {pending : PendingLoad} (hreachable : Reachable engine world)
    (hpublished : world.store.published = some base)
    (hload : world.store.prepareLoad engine id base.descriptor = .done pending)
    (hroot : pending.snapshot.root = base.root)
    (hreadable : ∀ key document, base.document? key = some document →
      pending.snapshot.document? key = none →
      ∃ onDisk, world.store.disk.readSource (Path.join base.root key) = .ok onDisk) :
    ∃ report next,
      world.store.sync engine none = (.ok report, { world.store with published := some next }) ∧
      (∀ key, (next.document? key).map Document.text =
        (pending.snapshot.document? key).map Document.text) ∧
      (0 < report.totalSynced → next.projects = pending.snapshot.projects) ∧
      (report.totalSynced = 0 → next = base) := by
  have hloadOf := Store.loadOf_of_prepareLoad hload
  obtain ⟨solution, members, hloaded, hlisted, hdocuments, hprojects, hsameRoot⟩ := hloadOf.found
  rw [← hsameRoot, hroot] at hdocuments
  have hascending := (hreachable.wellFormed hpublished).filed.ascending
  have hsurveyed := Store.surveyed_of_readDocuments hpublished hloaded hlisted hdocuments hreadable
  have htext := Store.text_scan hascending hsurveyed hdocuments
  have hkeys := Store.keys_scan hascending hloadOf.wellFormed.filed.ascending hsurveyed hdocuments
  by_cases hzero : (Store.scan world.store.disk base members none).2.summed.totalSynced = 0
  · refine ⟨_, base, Store.sync_eq_ok.mpr ⟨base, solution, members, hsurveyed,
      .inl ⟨hzero, rfl, by rw [← hpublished]⟩⟩, fun key => ?_, fun hpos => ?_, fun _ => rfl⟩
    · rw [Store.scan_of_totalSynced_eq_zero hzero] at htext
      exact htext key
    · exact absurd hzero (Nat.ne_of_gt hpos)
  · refine ⟨_, _, Store.sync_eq_ok.mpr ⟨base, solution, members, hsurveyed,
      .inr ⟨hzero, _, (Solution.describe_congr hkeys).trans hprojects, rfl, rfl⟩⟩, htext,
      fun _ => rfl, fun hnone => absurd hnone hzero⟩

/-- A sync of the small workspace reads what a load would. -/
theorem solo_sync_as_load : ∃ report, ∃ next : Snapshot,
    (soloWorld "zx" (some (soloSnapshot 0 0 "x")) [] [0]).store.sync soloEngine none =
      (.ok report, (soloWorld "zx" (some next) [] [0]).store) ∧
    (next.document? "a").map Document.text = some "zx" := by
  have hload := prepareLoad_solo "zx" (some (soloSnapshot 0 0 "x")) [] [0] 1
  obtain ⟨report, next, hsync, htext, -⟩ :=
    full_sync_as_load (reachable_solo "zx") rfl hload rfl fun key document hdocument hnone => by
      -- The load has the one document of the workspace.
      by_cases hkey : "a" = key
      · simp [soloSnapshot, Snapshot.document?, Keyed.get?, hkey] at hnone
      · simp [soloSnapshot, Snapshot.document?, Keyed.get?, hkey] at hdocument
  exact ⟨report, next, hsync, htext "a"⟩

/-! ### A project that gets another name -/

/-- A disk with nothing but a descriptor. -/
def bareDisk (project : String) : Disk := flatDisk [("d", projectText project)]

section

variable {project : String} (hproject : project = "P" ∨ project = "Q")

theorem tidy_bareDisk : (bareDisk project).Tidy :=
  tidy_flatDisk (by simp) (by simp [canName_d])

theorem sources_bareDisk : (bareDisk project).sources CSharp.extensions [] = [] := by
  rw [bareDisk]
  generalize projectText project = text
  cbv

include hproject

theorem prepareLoad_bareDisk (id : Nat) (published : Option Snapshot) :
    Store.prepareLoad (CSharp.engine fun _ => none) { disk := bareDisk project, published } id
      (ofNames ["d"]) = .done ⟨flatSnapshot id "d" project []⟩ :=
  prepareLoad_flatDisk tidy_bareDisk rfl (by cbv) (parse_projectText hproject) id sources_bareDisk rfl rfl

end

/-- The descriptor gives its project another name. No document has changed, so that a full sync publishes
nothing and the old name stays, while a load would have the new one. -/
theorem sync_keeps_project_name : ∃ world pending,
    Reachable (CSharp.engine fun _ => none) world ∧
    world.store.published = some (flatSnapshot 0 "d" "P" []) ∧
    world.store.prepareLoad (CSharp.engine fun _ => none) 1 (flatSnapshot 0 "d" "P" []).descriptor =
        .done pending ∧
    pending.snapshot.root = (flatSnapshot 0 "d" "P" []).root ∧
    world.store.sync (CSharp.engine fun _ => none) none = (.ok ⟨0, 0, 0, 0, 0⟩, world.store) ∧
    pending.snapshot.projects ≠ (flatSnapshot 0 "d" "P" []).projects := by
  have hload : (World.initial (bareDisk "P") "").store.load (CSharp.engine fun _ => none) 0
      (ofNames ["d"]) = (.ok ⟨0, 1, 0, 0, ["P"]⟩,
        { disk := bareDisk "P", published := some (flatSnapshot 0 "d" "P" []) }) :=
    load_flatDisk tidy_bareDisk rfl (by cbv) (parse_projectText (.inl rfl)) 0 sources_bareDisk rfl rfl
  have hloaded : Reachable (CSharp.engine fun _ => none)
      { store := { disk := bareDisk "P", published := some (flatSnapshot 0 "d" "P" []) } } :=
    .of_load (congrArg Prod.snd hload)
  have hrenamed : Reachable (CSharp.engine fun _ => none)
      { store := { disk := bareDisk "Q", published := some (flatSnapshot 0 "d" "P" []) } } :=
    hloaded.move (.step [] [] (.disturb _ (bareDisk "Q")))
  have hsolution : (CSharp.engine fun _ => none).loadSolution (bareDisk "Q") (ofNames ["d"]) =
      .done ⟨"/", [⟨"Q", "csharp", [], "/", []⟩]⟩ :=
    loadSolution_flatDisk tidy_bareDisk rfl (by cbv) (parse_projectText (.inr rfl)) sources_bareDisk
  refine ⟨_, ⟨flatSnapshot 1 "d" "Q" []⟩, hrenamed, rfl,
    prepareLoad_bareDisk (.inr rfl) 1 _, rfl, ?_, by simp [flatSnapshot]⟩
  refine Store.sync_eq_ok.mpr ⟨flatSnapshot 0 "d" "P" [], _, [], ⟨rfl, hsolution, rfl, ?_⟩,
    .inl ⟨rfl, rfl, rfl⟩⟩
  rintro key (hmember | ⟨document, hdocument⟩)
  · cases hmember
  · cases hdocument

end CodeIntel
