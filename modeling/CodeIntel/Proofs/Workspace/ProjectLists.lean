import CodeIntel.Proofs.Workspace.Agreement
import CodeIntel.Proofs.Workspace.Folders

/-! What a project lists after a load, and what a scan of its folder finds. A scan passes over folders of
build output and hidden ones, but a project lists every document below its folder, whichever project it
was found for. So the list has all that the scan finds below the folder; and it has nothing else exactly
when no project with sources has its folder in one that the scan passes over. -/

namespace CodeIntel

open CodeIntel.Path (ofNames ofRelative IsName)

/-! ### Scans -/

/-- On the way from a folder to a place at or below it there is a folder that a scan passes over. -/
def Disk.Conceals (disk : Disk) (folder place : Place) : Prop :=
  ∃ way name, folder ++ (way ++ [name]) <+: place ∧ isPassedOver name = true ∧
    disk.kindAt (folder ++ (way ++ [name])) = some .folder

section

variable {disk : Disk} {folder inner place : Place}

theorem Disk.Conceals.ne (h : disk.Conceals folder place) : place ≠ folder := by
  obtain ⟨way, name, hprefix, -⟩ := h
  rintro rfl
  have hlength := hprefix.length_le
  rw [List.length_append, List.length_append, List.length_singleton] at hlength
  omega

theorem Disk.Conceals.isPrefix (h : disk.Conceals folder place) : folder <+: place := by
  obtain ⟨way, name, hprefix, -⟩ := h
  exact (List.prefix_append _ _).trans hprefix

/-- What is concealed from a folder is so before or after a folder on the way. -/
theorem Disk.conceals_iff (hinner : folder <+: inner) (hplace : inner <+: place) :
    disk.Conceals folder place ↔ disk.Conceals folder inner ∨ disk.Conceals inner place := by
  constructor
  · rintro ⟨way, name, hprefix, hpassed, hkind⟩
    rcases List.prefix_or_prefix_of_prefix hprefix hplace with hbefore | ⟨rest, hrest⟩
    · exact .inl ⟨way, name, hbefore, hpassed, hkind⟩
    · rcases List.eq_nil_or_concat rest with rfl | ⟨way', name', rfl⟩
      · rw [List.append_nil] at hrest
        exact .inl ⟨way, name, hrest ▸ List.prefix_rfl, hpassed, hkind⟩
      · rw [List.concat_eq_append] at hrest
        obtain rfl : name' = name := by
          have hlast := congrArg List.getLast? hrest
          simpa using hlast
        rw [← hrest] at hprefix hkind
        exact .inr ⟨way', name', hprefix, hpassed, hkind⟩
  · rintro (⟨way, name, hprefix, hpassed, hkind⟩ | ⟨way, name, hprefix, hpassed, hkind⟩)
    · exact ⟨way, name, hprefix.trans hplace, hpassed, hkind⟩
    · obtain ⟨mid, rfl⟩ := hinner
      rw [List.append_assoc, ← List.append_assoc mid] at hprefix hkind
      exact ⟨mid ++ way, name, hprefix, hpassed, hkind⟩

/-- The sources of a folder are the files at or below it with one of the extensions that nothing
conceals. -/
theorem Disk.isSource_iff {extensions : List String} {file : Place} :
    disk.IsSource extensions folder file ↔ (∃ content, disk.top.find? file = some (.file content)) ∧
      Path.hasExtension extensions (ofNames file) ∧ folder <+: file ∧ ¬ disk.Conceals folder file := by
  refine and_congr_right fun ⟨content, hfile⟩ => and_congr_right fun _ => ?_
  constructor
  · rintro ⟨below, rfl, hlooked⟩
    refine ⟨List.prefix_append _ _, ?_⟩
    rintro ⟨way, name, ⟨rest, hrest⟩, hpassed, hkind⟩
    rw [List.append_assoc] at hrest
    obtain rfl := List.append_cancel_left hrest
    rcases List.eq_nil_or_concat rest with rfl | ⟨more, last, rfl⟩
    · rw [List.append_nil] at hfile
      rw [kindAt, hfile] at hkind
      cases hkind
    · rw [List.concat_eq_append, ← List.append_assoc, List.dropLast_concat] at hlooked
      rw [hlooked name (by simp)] at hpassed
      cases hpassed
  · rintro ⟨⟨below, rfl⟩, hopen⟩
    refine ⟨below, rfl, fun name hmem => eq_false_of_ne_true fun hpassed => hopen ?_⟩
    rcases List.eq_nil_or_concat below with rfl | ⟨init, last, rfl⟩
    · cases hmem
    · rw [List.concat_eq_append] at hmem hfile ⊢
      rw [List.dropLast_concat] at hmem
      obtain ⟨way, more, rfl⟩ := List.append_of_mem hmem
      have hway : folder ++ (way ++ name :: more ++ [last]) =
          folder ++ (way ++ [name]) ++ (more ++ [last]) := by simp
      rw [hway, Entry.find?_append] at hfile
      obtain ⟨entry, hentry, hbelow⟩ := Option.bind_eq_some_iff.mp hfile
      obtain ⟨children, rfl⟩ := Entry.exists_folder_of_find? (by simp) hbelow
      refine ⟨way, name, hway ▸ List.prefix_append _ _, hpassed, ?_⟩
      rw [kindAt, hentry]
      rfl

end

/-! ### Lists -/

/-- A project lists exactly what a scan of its folder finds. -/
def Project.ListsScan (project : Project) (disk : Disk) (root folder : Place) : Prop :=
  ∀ key, key ∈ project.documents ↔ ∃ names, key = ofRelative names ∧
    root ++ names ∈ disk.sources CSharp.extensions (root ++ folder)

/-- A folder is not itself a source, and no project has sources at and below a folder that is concealed
from it. -/
structure Descriptor.Unconcealed (descriptor : Descriptor) (disk : Disk) (root folder : Place) :
    Prop where
  not_source : root ++ folder ∉ disk.sources CSharp.extensions (root ++ folder)
  sources_eq : ∀ q ∈ descriptor.projects, ∀ inner, q.StandsAt disk root inner →
    disk.Conceals (root ++ folder) (root ++ inner) →
    disk.sources CSharp.extensions (root ++ inner) = []

namespace Solution.ReadFrom

variable {disk : Disk} {place : Place} {solution : Solution} {descriptor : Descriptor}
  {members : List String} {snapshot : Snapshot} {p : ProjectDescriptor} {folder : Place}
  (h : solution.ReadFrom disk place descriptor members) (hplain : disk.Plain)
include h hplain

/-- On a plain disk the documents are the sources. -/
theorem holdsSources
    (hdocuments : disk.readDocuments solution.root members = .ok snapshot.documents) :
    snapshot.HoldsSources disk descriptor place.dropLast := by
  rw [h.holdsSources_iff hdocuments rfl]
  rintro names ⟨-, -, -, -, ⟨content, hfile⟩, -⟩
  rw [ofRelative, Path.mem_toList_intercalate (by decide)]
  rintro ⟨name, hmem, hslash⟩
  exact hplain.notMem _ _ hfile name (List.mem_append_right _ hmem) hslash

variable (hholds : snapshot.HoldsSources disk descriptor place.dropLast)
  (hstands : p.StandsAt disk place.dropLast folder)
include hholds hstands

/-- A project lists the sources below its folder, for whichever project they were found. -/
theorem mem_placed (key : String) :
    key ∈ (p.placed folder snapshot.documents).documents ↔ ∃ rest, rest ≠ [] ∧
      key = ofRelative (folder ++ rest) ∧
      descriptor.HasSource disk place.dropLast (place.dropLast ++ (folder ++ rest)) := by
  obtain ⟨entry, hentry⟩ := hplain.linkFree.exists_of_locate hstands
  have hfolder : ∀ name ∈ folder, IsName name :=
    fun name hmem => hplain.isName hentry name (List.mem_append_right _ hmem)
  have hbelow : ∀ names, descriptor.HasSource disk place.dropLast (place.dropLast ++ names) →
      (isBelow (folderName folder) (ofRelative names) = true ↔ ∃ rest, rest ≠ [] ∧ names = folder ++ rest) := by
    intro names hsource
    obtain ⟨hne, hnames⟩ := h.names_of_source hsource
    exact isBelow_folderName hfolder hne hnames
  rw [ProjectDescriptor.placed, List.mem_filter, Keyed.mem_keys]
  constructor
  · rintro ⟨hdocument, hinside⟩
    obtain ⟨names, rfl, hsource⟩ := (hholds key).mp hdocument
    obtain ⟨rest, hrest, rfl⟩ := (hbelow names hsource).mp hinside
    exact ⟨rest, hrest, rfl, hsource⟩
  · rintro ⟨rest, hrest, rfl, hsource⟩
    exact ⟨(hholds _).mpr ⟨_, rfl, hsource⟩, (hbelow _ hsource).mpr ⟨rest, hrest, rfl⟩⟩

variable (hmem : p ∈ descriptor.projects)
include hmem

/-- What a scan of the folder finds below it is listed. -/
theorem mem_placed_of_sources {names : Place} (hne : names ≠ folder)
    (hfile : place.dropLast ++ names ∈ disk.sources CSharp.extensions (place.dropLast ++ folder)) :
    ofRelative names ∈ (p.placed folder snapshot.documents).documents := by
  rw [Disk.mem_sources_iff_isSource hplain.tidy.distinct] at hfile
  obtain ⟨rest, rfl⟩ := (List.prefix_append_right_inj _).mp (Disk.isSource_iff.mp hfile).2.2.1
  refine (h.mem_placed hplain hholds hstands _).mpr ⟨rest, ?_, rfl, p, hmem, _, hstands, hfile⟩
  rintro rfl
  exact hne (List.append_nil folder)

theorem unconcealed_of_listsScan
    (hlists : (p.placed folder snapshot.documents).ListsScan disk place.dropLast folder) :
    descriptor.Unconcealed disk place.dropLast folder := by
  have hlisted := h.mem_placed hplain hholds hstands
  have hname : ∀ names, descriptor.HasSource disk place.dropLast (place.dropLast ++ names) →
      ∀ name ∈ names, IsName name := fun _ hsource => (h.names_of_source hsource).2
  have hown : ∀ names, place.dropLast ++ names ∈
      disk.sources CSharp.extensions (place.dropLast ++ folder) →
      descriptor.HasSource disk place.dropLast (place.dropLast ++ names) := fun _ hscan =>
    ⟨p, hmem, _, hstands, (Disk.mem_sources_iff_isSource hplain.tidy.distinct).mp hscan⟩
  refine ⟨fun hself => ?_, fun q hq inner hinner hconceals => ?_⟩
  · -- The file that is the folder would have to lie below itself.
    obtain ⟨rest, hrest, heq, hsource⟩ := (hlisted _).mp ((hlists _).mpr ⟨folder, rfl, hself⟩)
    have hsame := Path.ofRelative_inj (hname _ (hown _ hself)) (hname _ hsource) heq
    exact hrest (List.self_eq_append_right.mp hsame)
  · refine List.eq_nil_iff_forall_not_mem.mpr fun file hfile => ?_
    rw [Disk.mem_sources_iff_isSource hplain.tidy.distinct] at hfile
    have hbehind := (Disk.conceals_iff hconceals.isPrefix (Disk.isSource_iff.mp hfile).2.2.1).mpr
      (.inl hconceals)
    obtain ⟨rest, rfl⟩ := hbehind.isPrefix
    have hrest : rest ≠ [] := by
      rintro rfl
      exact hbehind.ne (List.append_nil _)
    rw [List.append_assoc] at hfile hbehind
    have hsource : descriptor.HasSource disk place.dropLast (place.dropLast ++ (folder ++ rest)) :=
      ⟨q, hq, _, hinner, hfile⟩
    obtain ⟨names, heq, hscan⟩ := (hlists _).mp ((hlisted _).mpr ⟨rest, hrest, rfl, hsource⟩)
    obtain rfl := Path.ofRelative_inj (hname _ hsource) (hname _ (hown _ hscan)) heq
    rw [Disk.mem_sources_iff_isSource hplain.tidy.distinct] at hscan
    exact (Disk.isSource_iff.mp hscan).2.2.2 hbehind

theorem listsScan_of_unconcealed (hopen : descriptor.Unconcealed disk place.dropLast folder) :
    (p.placed folder snapshot.documents).ListsScan disk place.dropLast folder := by
  intro key
  rw [h.mem_placed hplain hholds hstands]
  constructor
  · rintro ⟨rest, hrest, rfl, hsource⟩
    obtain ⟨q, hq, inner, hinner, -, hfile⟩ := h.exists_standsAt hsource
    obtain ⟨hcontent, hextension, hinside, hclear⟩ := Disk.isSource_iff.mp hfile
    have hbelow : place.dropLast ++ folder <+: place.dropLast ++ (folder ++ rest) :=
      ⟨rest, List.append_assoc _ _ _⟩
    refine ⟨_, rfl, ?_⟩
    rw [Disk.mem_sources_iff_isSource hplain.tidy.distinct, Disk.isSource_iff]
    refine ⟨hcontent, hextension, hbelow, ?_⟩
    -- The file was found for a project whose folder is above this one or below it.
    rcases List.prefix_or_prefix_of_prefix hinside hbelow with habove | hunder
    · exact fun hbehind => hclear ((Disk.conceals_iff habove hbelow).mpr (.inr hbehind))
    · rw [Disk.conceals_iff hunder hinside]
      rintro (hbehind | hbehind)
      · rw [← Disk.mem_sources_iff_isSource hplain.tidy.distinct,
          hopen.sources_eq q hq inner hinner hbehind] at hfile
        cases hfile
      · exact hclear hbehind
  · rintro ⟨names, rfl, hscan⟩
    have hfile := (Disk.mem_sources_iff_isSource hplain.tidy.distinct).mp hscan
    obtain ⟨rest, rfl⟩ := (List.prefix_append_right_inj _).mp (Disk.isSource_iff.mp hfile).2.2.1
    refine ⟨rest, ?_, rfl, p, hmem, _, hstands, hfile⟩
    rintro rfl
    rw [List.append_nil] at hscan
    exact hopen.not_source hscan

end Solution.ReadFrom

/-- After a load on a disk without links and backslashes the projects of the snapshot are those of the
descriptor, one by one. Each lists the sources of all projects that lie below its folder. Among these is
all that a scan of the folder finds below it; and there is nothing else, and the folder is no source
itself, exactly when no project has sources at and below a folder that such a scan passes over. -/
theorem load_lists_by_folder {parser : CSharp.Parser} {store after : Store} {id : Nat} {path : String}
    {summary : LoadSummary} (hplain : store.disk.Plain)
    (h : store.load (CSharp.engine parser) id path = (.ok summary, after)) :
    ∃ place text descriptor snapshot, store.disk.locate path = .ok place ∧
      store.disk.read (ofNames place) = .ok text.toUTF8 ∧
      Descriptor.parse text = .ok descriptor ∧ after = store.publish snapshot ∧
      List.Forall₂
        (fun p project => ∃ folder, p.StandsAt store.disk place.dropLast folder ∧
          project.directory = folderName folder ∧
          (∀ key, key ∈ project.documents ↔ ∃ rest, rest ≠ [] ∧ key = ofRelative (folder ++ rest) ∧
            descriptor.HasSource store.disk place.dropLast (place.dropLast ++ (folder ++ rest))) ∧
          (∀ names, names ≠ folder → place.dropLast ++ names ∈
              store.disk.sources CSharp.extensions (place.dropLast ++ folder) →
            ofRelative names ∈ project.documents) ∧
          (project.ListsScan store.disk place.dropLast folder ↔
            descriptor.Unconcealed store.disk place.dropLast folder))
        descriptor.projects snapshot.projects := by
  obtain ⟨snapshot, hload, rfl⟩ := Store.load_eq_ok h
  obtain ⟨solution, members, hsolution, hmembers, hdocuments, hprojects, -⟩ := hload.found
  obtain ⟨place, text, descriptor, hplace, hread, hparse, hfrom⟩ :=
    Solution.readFrom_of_load hplain.tidy hplain.linkFree hsolution hmembers
  have hholds := hfrom.holdsSources hplain hdocuments
  refine ⟨place, text, descriptor, snapshot, hplace, hread, hparse, rfl, ?_⟩
  have hplaced := hfrom.forall₂_placed hplain hprojects
  refine ((List.forall₂_and_left _ _).mpr ⟨fun p hp => hp, hplaced⟩).imp ?_
  rintro p project ⟨hp, folder, hstands, rfl⟩
  exact ⟨folder, hstands, rfl, hfrom.mem_placed hplain hholds hstands,
    fun names => hfrom.mem_placed_of_sources hplain hholds hstands hp,
    hfrom.unconcealed_of_listsScan hplain hholds hstands hp,
    hfrom.listsScan_of_unconcealed hplain hholds hstands hp⟩

/-! ### A project inside a folder of build output -/

/-- A disk with a descriptor and a source in a folder of build output. -/
def nestedDisk (text : String) : Disk :=
  { top := .folder [("bin", .folder [("a.cs", .file "x".toUTF8)]), ("d", .file text.toUTF8)] }

/-- A descriptor of one project in its own folder and one in the folder of build output. -/
def nestedText : String :=
  "\x7b\"projects\":[\x7b\"name\":\"P\"\x7d,\x7b\"name\":\"Q\",\"path\":\"bin\"\x7d]\x7d"

/-- The project in the folder of the descriptor. -/
def outerProject : ProjectDescriptor := ⟨"P", ".", none, []⟩

/-- The project in the folder of build output. -/
def innerProject : ProjectDescriptor := ⟨"Q", "bin", none, []⟩

def nestedDescriptor : Descriptor := ⟨[outerProject, innerProject]⟩

def nestedDocuments : Keyed Document := [("bin/a.cs", ⟨"bin/a.cs", "x", 0⟩)]

/-- What a load publishes of that disk. -/
def nestedSnapshot : Snapshot :=
  ⟨0, 0, "/", "/d", [outerProject.placed [] nestedDocuments, innerProject.placed ["bin"] nestedDocuments],
    nestedDocuments, ""⟩

theorem parse_nestedText : Descriptor.parse nestedText = .ok nestedDescriptor :=
  parse_of_ofText (by decide +kernel)

section

variable {text : String}

theorem find?_nestedDisk {place : Place} {entry : Entry}
    (h : (nestedDisk text).top.find? place = some entry) :
    (place = [] ∧ entry = (nestedDisk text).top) ∨
      (place = ["bin"] ∧ entry = .folder [("a.cs", .file "x".toUTF8)]) ∨
      (place = ["bin", "a.cs"] ∧ entry = .file "x".toUTF8) ∨
      (place = ["d"] ∧ entry = .file text.toUTF8) := by
  rcases place with _ | ⟨name, rest⟩
  · exact .inl ⟨rfl, (Option.some.inj h).symm⟩
  · obtain ⟨_, child, htop, hchild, hrest⟩ := Entry.find?_cons_eq_some.mp h
    obtain rfl := Entry.folder.inj htop
    rcases List.mem_pair.mp (Entry.mem_of_child? hchild) with hbin | hfile
    · obtain ⟨rfl, rfl⟩ := Prod.mk.inj hbin
      rcases rest with _ | ⟨next, rest⟩
      · exact .inr (.inl ⟨rfl, (Option.some.inj hrest).symm⟩)
      · obtain ⟨_, inner, hfolder, hinner, hlast⟩ := Entry.find?_cons_eq_some.mp hrest
        obtain rfl := Entry.folder.inj hfolder
        obtain ⟨rfl, rfl⟩ := Prod.mk.inj (List.mem_singleton.mp (Entry.mem_of_child? hinner))
        obtain ⟨rfl, rfl⟩ := Entry.find?_file hlast
        exact .inr (.inr (.inl ⟨rfl, rfl⟩))
    · obtain ⟨rfl, rfl⟩ := Prod.mk.inj hfile
      obtain ⟨rfl, rfl⟩ := Entry.find?_file hrest
      exact .inr (.inr (.inr ⟨rfl, rfl⟩))

theorem name_of_mem_nestedDisk {place : Place} {entry : Entry} {name : String}
    (h : (nestedDisk text).top.find? place = some entry) (hmem : name ∈ place) :
    name = "bin" ∨ name = "a.cs" ∨ name = "d" := by
  have hplace : place <+: ["bin", "a.cs"] ∨ place = ["d"] := by
    rcases find?_nestedDisk h with ⟨rfl, -⟩ | ⟨rfl, -⟩ | ⟨rfl, -⟩ | ⟨rfl, -⟩
    · exact .inl (by decide)
    · exact .inl (by decide)
    · exact .inl (by decide)
    · exact .inr rfl
  rcases hplace with hprefix | rfl
  · have hname := hprefix.subset hmem
    simp only [List.mem_cons, List.not_mem_nil, or_false] at hname
    exact hname.imp_right .inl
  · exact .inr (.inr (List.mem_singleton.mp hmem))

variable (text)

theorem plain_nestedDisk : (nestedDisk text).Plain := by
  refine ⟨⟨fun place children h => ?_, fun place entry h name hmem => ?_⟩, fun name rest target hlink => ?_,
    fun place entry h name hmem => ?_⟩
  · rcases find?_nestedDisk h with ⟨-, h⟩ | ⟨-, h⟩ | ⟨-, h⟩ | ⟨-, h⟩
    · obtain rfl := Entry.folder.inj h
      simp
    · obtain rfl := Entry.folder.inj h
      simp
    · cases h
    · cases h
  · rcases name_of_mem_nestedDisk h hmem with rfl | rfl | rfl <;>
      exact ⟨by simp [IsName], by decide, by decide⟩
  · obtain ⟨entry, hentry, hkind⟩ := Option.map_eq_some_iff.mp hlink
    rcases find?_nestedDisk hentry with ⟨-, rfl⟩ | ⟨-, rfl⟩ | ⟨-, rfl⟩ | ⟨-, rfl⟩ <;> cases hkind
  · rcases name_of_mem_nestedDisk h hmem with rfl | rfl | rfl <;> decide

theorem sources_nestedDisk :
    (nestedDisk text).sources CSharp.extensions [] = [] ∧
      (nestedDisk text).sources CSharp.extensions ["bin"] = [["bin", "a.cs"]] := by
  constructor <;> cbv

theorem standsAt_nestedDisk :
    outerProject.StandsAt (nestedDisk text) [] [] ∧
      innerProject.StandsAt (nestedDisk text) [] ["bin"] := by
  have houter : (nestedDisk text).locate (Path.join (ofNames []) ".") = .ok [] := by cbv
  have hinner : (nestedDisk text).locate (Path.join (ofNames []) "bin") = .ok ["bin"] := by cbv
  exact ⟨houter, hinner⟩

theorem locate_nestedDisk : (nestedDisk text).locate "/d" = .ok ["d"] := by cbv

/-- The source of the inner project lies behind a folder of build output. -/
theorem not_unconcealed_outer : ¬ nestedDescriptor.Unconcealed (nestedDisk text) [] [] := by
  intro hopen
  have hconceals : (nestedDisk text).Conceals [] ["bin"] := ⟨[], "bin", List.prefix_rfl, by decide, rfl⟩
  have hnone := hopen.sources_eq innerProject (by decide) ["bin"] (standsAt_nestedDisk text).2 hconceals
  rw [List.nil_append, (sources_nestedDisk text).2] at hnone
  cases hnone

theorem unconcealed_inner : nestedDescriptor.Unconcealed (nestedDisk text) [] ["bin"] := by
  obtain ⟨houter, hinner⟩ := standsAt_nestedDisk text
  refine ⟨?_, fun q hq inside hinside hbehind => ?_⟩
  · rw [List.nil_append, (sources_nestedDisk text).2]
    decide
  · rcases List.mem_pair.mp hq with rfl | rfl
    · obtain rfl := houter.unique hinside
      exact absurd hbehind.isPrefix (by decide)
    · obtain rfl := hinner.unique hinside
      exact absurd rfl hbehind.ne

theorem readDocuments_nestedDisk :
    (nestedDisk text).readDocuments "/" ["bin/a.cs"] = .ok nestedDocuments := by
  have hpath : Path.join "/" "bin/a.cs" = "/bin/a.cs" := by decide
  have hread : (nestedDisk text).read "/bin/a.cs" = .ok "x".toUTF8 :=
    Disk.read_eq_ok.mpr ⟨Disk.admissible_eq_ok.mpr ⟨by simp, by decide, by decide⟩, ["bin", "a.cs"],
      Disk.mostLinks, by cbv, rfl⟩
  exact Disk.readDocuments_of_single (hpath ▸ Disk.readSource_of_read hread)

theorem read_nestedDisk : (nestedDisk text).read "/d" = .ok text.toUTF8 := by cbv

variable {text} (hparse : Descriptor.parse text = .ok nestedDescriptor)
include hparse

theorem loadSolution_nestedDisk :
    (CSharp.engine fun _ => none).loadSolution (nestedDisk text) "/d" =
      .done ⟨"/", [⟨"P", "csharp", [], "/", []⟩, ⟨"Q", "csharp", [], "/bin", ["/bin/a.cs"]⟩]⟩ := by
  obtain ⟨houter, hinner⟩ := standsAt_nestedDisk text
  obtain ⟨hnone, hone⟩ := sources_nestedDisk text
  refine Outcome.ofExcept_eq_done.mpr ?_
  rw [Solution.load_of_read (locate_nestedDisk text) (read_nestedDisk text) hparse]
  have hfirst : Solution.loadProject (nestedDisk text) [] CSharp.language CSharp.extensions
      outerProject = .ok ⟨"P", "csharp", [], "/", []⟩ :=
    Solution.loadProject_eq_ok.mpr ⟨[], houter, List.prefix_rfl, by rw [hnone]; rfl⟩
  have hsecond : Solution.loadProject (nestedDisk text) [] CSharp.language CSharp.extensions
      innerProject = .ok ⟨"Q", "csharp", [], "/bin", ["/bin/a.cs"]⟩ :=
    Solution.loadProject_eq_ok.mpr ⟨["bin"], hinner, List.nil_prefix, by rw [hone]; rfl⟩
  have hnames : innerProject.name ≠ outerProject.name := by decide
  simp [nestedDescriptor, Solution.loadProjects, hfirst, hsecond, hnames, bind, Except.bind, pure,
    Except.pure, Except.map, ofNames]

theorem load_nestedDisk :
    Store.load (CSharp.engine fun _ => none) { disk := nestedDisk text } 0 "/d" =
      (.ok ⟨0, 2, 1, 0, ["P", "Q"]⟩,
        { disk := nestedDisk text, published := some nestedSnapshot }) := by
  have hexists : (nestedDisk text).pathExists "/d" = true := by cbv
  have hcanonical : (nestedDisk text).canonical? "/d" = some "/d" := by cbv
  have hroot : (nestedDisk text).normal? "/" "/" = some "" := by cbv
  have hbin : (nestedDisk text).normal? "/" "/bin" = some "bin" := by cbv
  have hfile : (nestedDisk text).normal? "/" "/bin/a.cs" = some "bin/a.cs" := by cbv
  have hmembers : Solution.memberPaths (nestedDisk text)
      ⟨"/", [⟨"P", "csharp", [], "/", []⟩, ⟨"Q", "csharp", [], "/bin", ["/bin/a.cs"]⟩]⟩ =
      .ok ["bin/a.cs"] :=
    bind_eq_ok.mpr ⟨["bin/a.cs"], mapM_eq_ok.mpr (.cons (Snapshot.normalPath_eq_ok.mpr hfile) .nil), rfl⟩
  have hprojects : Solution.describe (nestedDisk text)
      ⟨"/", [⟨"P", "csharp", [], "/", []⟩, ⟨"Q", "csharp", [], "/bin", ["/bin/a.cs"]⟩]⟩
      nestedDocuments = .ok nestedSnapshot.projects := by
    refine mapM_eq_ok.mpr (.cons ?_ (.cons ?_ .nil))
    · exact bind_eq_ok.mpr ⟨"", Snapshot.normalPath_eq_ok.mpr hroot, rfl⟩
    · exact bind_eq_ok.mpr ⟨"bin", Snapshot.normalPath_eq_ok.mpr hbin, rfl⟩
  rw [Store.load, Store.prepareLoad_of_found { disk := nestedDisk text } 0 hexists hcanonical
    (loadSolution_nestedDisk hparse) hmembers (readDocuments_nestedDisk text) hprojects]
  rfl

end

/-- The project in the folder of the descriptor lists the file of the other one, which a scan of its
folder passes over; the other one lists what a scan of its own folder finds. -/
theorem nested_project_lists_more :
    ¬ (outerProject.placed [] nestedDocuments).ListsScan (nestedDisk nestedText) [] [] ∧
      (innerProject.placed ["bin"] nestedDocuments).ListsScan (nestedDisk nestedText) [] ["bin"] := by
  have hparsed := parse_nestedText
  generalize nestedText = text at hparsed ⊢
  obtain ⟨houter, hinner⟩ := standsAt_nestedDisk text
  obtain ⟨place, text', descriptor, snapshot, hplace, hread, hparse, hafter, hlists⟩ :=
    load_lists_by_folder (plain_nestedDisk text) (load_nestedDisk hparsed)
  obtain rfl := Except.ok.inj ((locate_nestedDisk text).symm.trans hplace)
  obtain rfl := String.toByteArray_inj.mp (Except.ok.inj ((read_nestedDisk text).symm.trans hread))
  obtain rfl := Except.ok.inj (hparsed.symm.trans hparse)
  obtain rfl : nestedSnapshot = snapshot := Option.some.inj (congrArg Store.published hafter)
  have hroot : (["d"] : Place).dropLast = [] := rfl
  rw [hroot] at hlists
  cases hlists with
  | cons hfirst hrest =>
      cases hrest with
      | cons hsecond _ =>
          obtain ⟨folder, hstands, -, -, -, hagree⟩ := hfirst
          obtain ⟨folder', hstands', -, -, -, hagree'⟩ := hsecond
          obtain rfl : [] = folder := houter.unique hstands
          obtain rfl : ["bin"] = folder' := hinner.unique hstands'
          rw [hagree, hagree']
          exact ⟨not_unconcealed_outer text, unconcealed_inner text⟩

/-- A project does not list what a scan of its folder finds only. -/
theorem project_lists_unscanned :
    ¬ ∀ (store after : Store) (id : Nat) (path text : String) (summary : LoadSummary) (place : Place)
      (descriptor : Descriptor) (snapshot : Snapshot), store.disk.Plain →
      store.load (CSharp.engine fun _ => none) id path = (.ok summary, after) →
      after.published = some snapshot → store.disk.locate path = .ok place →
      store.disk.read (ofNames place) = .ok text.toUTF8 → Descriptor.parse text = .ok descriptor →
      List.Forall₂ (fun p project => ∀ folder, p.StandsAt store.disk place.dropLast folder →
        project.ListsScan store.disk place.dropLast folder) descriptor.projects snapshot.projects := by
  intro hall
  have hparsed := parse_nestedText
  generalize nestedText = text at hparsed
  have hlists := hall _ _ 0 "/d" text _ ["d"] _ _ (plain_nestedDisk text)
    (load_nestedDisk hparsed) rfl (locate_nestedDisk text) (read_nestedDisk text) hparsed
  cases hlists with
  | cons hfirst _ =>
      obtain ⟨names, -, hscan⟩ := (hfirst [] (standsAt_nestedDisk text).1 "bin/a.cs").mp (by decide)
      have hroot : (["d"] : Place).dropLast = [] := rfl
      rw [hroot, List.append_nil, (sources_nestedDisk text).1] at hscan
      cases hscan

end CodeIntel
