import CodeIntel.CSharp.Engine
import CodeIntel.Proofs.Disk.Destinations
import CodeIntel.Proofs.Workspace.Reconciliation

/-! What a load finds. The members of a solution are the normal forms of the paths of its files, and each
member under which there is a file becomes a document. On a disk without links the documents are the
source files of the projects, each under its own path, exactly when no source file has a backslash in
its path below the root: such a path is taken apart at the backslash, so that its file is missed or
another one is taken for it. -/

namespace CodeIntel

open CodeIntel.Path (ofNames ofRelative IsName)

/-! ### Solutions -/

namespace Solution

variable {disk : Disk} {root : Place} {language : String} {extensions : List String}

theorem readText_eq_ok {path text : String} (h : readText disk path = .ok text) :
    disk.read path = .ok text.toUTF8 := by
  rw [readText] at h
  split at h
  · cases h
  · rename_i content hread
    split at h
    · rename_i found hfound
      obtain rfl := Except.ok.inj h
      rw [String.fromUTF8?] at hfound
      split at hfound
      · obtain rfl := Option.some.inj hfound
        exact hread
      · cases hfound
    · cases h

/-- A project has the sources at and below its folder, which is that of the root or one below it. -/
theorem loadProject_eq_ok {p : ProjectDescriptor} {model : ProjectModel} :
    loadProject disk root language extensions p = .ok model ↔
      ∃ directory, disk.locate (Path.join (ofNames root) p.path) = .ok directory ∧ root <+: directory ∧
        model =
          { name := p.name
            language := p.language.getD language
            references := p.references
            directory := ofNames directory
            documents := (disk.sources extensions directory).map ofNames } := by
  rw [loadProject]
  split
  · rename_i hfault
    simp [hfault]
  · rename_i place hplace
    split
    · rename_i hinside
      rw [hplace]
      simp [List.isPrefixOf_iff_prefix.mp hinside, eq_comm]
    · rename_i houtside
      refine iff_of_false (by simp) ?_
      rintro ⟨directory, hdirectory, hinside, -⟩
      obtain rfl := Except.ok.inj (hplace.symm.trans hdirectory)
      exact houtside (List.isPrefixOf_iff_prefix.mpr hinside)

theorem loadProjects_eq_ok {seen : List String} {projects : List ProjectDescriptor}
    {models : List ProjectModel}
    (h : loadProjects disk root language extensions seen projects = .ok models) :
    projects.mapM (loadProject disk root language extensions) = .ok models := by
  induction projects generalizing seen models with
  | nil => exact h
  | cons p rest ih =>
      rw [loadProjects] at h
      split at h
      · cases h
      · obtain ⟨model, hmodel, h⟩ := bind_eq_ok.mp h
        obtain ⟨others, hothers, h⟩ := bind_eq_ok.mp h
        rw [List.mapM_cons]
        exact bind_eq_ok.mpr ⟨model, hmodel, bind_eq_ok.mpr ⟨others, ih hothers, h⟩⟩

/-- A solution is read from its descriptor, whose folder is its root. -/
theorem load_eq_ok {path : String} {solution : Solution}
    (h : load language extensions disk path = .ok solution) :
    ∃ place text descriptor, disk.locate path = .ok place ∧
      disk.read (ofNames place) = .ok text.toUTF8 ∧ Descriptor.parse text = .ok descriptor ∧
      solution.root = ofNames place.dropLast ∧
      descriptor.projects.mapM (loadProject disk place.dropLast language extensions) =
        .ok solution.projects := by
  rw [load] at h
  split at h
  · cases h
  · rename_i place hplace
    obtain ⟨text, htext, h⟩ := bind_eq_ok.mp h
    obtain ⟨descriptor, hdescriptor, h⟩ := bind_eq_ok.mp h
    obtain ⟨models, hmodels, h⟩ := bind_eq_ok.mp h
    obtain rfl := Except.ok.inj h
    exact ⟨place, text, descriptor, hplace, readText_eq_ok htext, hdescriptor, rfl,
      loadProjects_eq_ok hmodels⟩

theorem load_of_read {path text : String} {place : Place} {descriptor : Descriptor}
    (hplace : disk.locate path = .ok place) (hread : disk.read (ofNames place) = .ok text.toUTF8)
    (hparse : Descriptor.parse text = .ok descriptor) :
    load language extensions disk path =
      (loadProjects disk place.dropLast language extensions [] descriptor.projects).map
        (Solution.mk (ofNames place.dropLast)) := by
  have htext : readText disk (ofNames place) = .ok text := by
    rw [readText, hread]
    simp [String.fromUTF8?, String.toUTF8, text.isValidUTF8, String.fromUTF8]
  rw [load, hplace]
  dsimp only
  rw [htext]
  simp only [bind, Except.bind, hparse]
  cases loadProjects disk place.dropLast language extensions [] descriptor.projects <;> rfl

/-- All files of a solution. -/
def files (solution : Solution) : List String := solution.projects.flatMap ProjectModel.documents

theorem memberPaths_eq_ok {solution : Solution} {members : List String}
    (h : solution.memberPaths disk = .ok members) :
    members.Pairwise (· < ·) ∧
      (∀ path ∈ solution.files, ∃ key ∈ members, disk.normal? solution.root path = some key) ∧
      ∀ key ∈ members, ∃ path ∈ solution.files, disk.normal? solution.root path = some key := by
  obtain ⟨normal, hnormal, h⟩ := bind_eq_ok.mp h
  obtain rfl := Except.ok.inj h
  refine ⟨pairwise_ascending normal, fun path hpath => ?_, fun key hkey => ?_⟩
  · obtain ⟨key, hkey, hmem⟩ := exists_of_mem_of_mapM hnormal hpath
    exact ⟨key, mem_ascending.mpr hmem, Snapshot.normalPath_eq_ok.mp hkey⟩
  · obtain ⟨path, hpath, hkey⟩ := exists_of_mem_mapM hnormal (mem_ascending.mp hkey)
    exact ⟨path, hpath, Snapshot.normalPath_eq_ok.mp hkey⟩

section

variable {solution : Solution} {descriptor : Descriptor}
  (h : descriptor.projects.mapM (loadProject disk root language extensions) = .ok solution.projects)
include h

/-- The files of a solution are the sources of the projects that its descriptor names. -/
theorem mem_files_of_load {path : String} :
    path ∈ solution.files ↔ ∃ p ∈ descriptor.projects, ∃ directory,
      disk.locate (Path.join (ofNames root) p.path) = .ok directory ∧
        ∃ file ∈ disk.sources extensions directory, ofNames file = path := by
  rw [files, List.mem_flatMap]
  constructor
  · rintro ⟨model, hmem, hpath⟩
    obtain ⟨p, hp, hmodel⟩ := exists_of_mem_mapM h hmem
    obtain ⟨directory, hlocate, -, rfl⟩ := loadProject_eq_ok.mp hmodel
    exact ⟨p, hp, directory, hlocate, List.mem_map.mp hpath⟩
  · rintro ⟨p, hp, directory, hlocate, hpath⟩
    obtain ⟨model, hmodel, hmem⟩ := exists_of_mem_of_mapM h hp
    obtain ⟨directory', hlocate', -, rfl⟩ := loadProject_eq_ok.mp hmodel
    obtain rfl := Except.ok.inj (hlocate.symm.trans hlocate')
    exact ⟨_, hmem, List.mem_map.mpr hpath⟩

/-- The folder of each project lies at or below the root. -/
theorem isPrefix_of_load {p : ProjectDescriptor} (hp : p ∈ descriptor.projects) {directory : Place}
    (hlocate : disk.locate (Path.join (ofNames root) p.path) = .ok directory) : root <+: directory := by
  obtain ⟨model, hmodel, -⟩ := exists_of_mem_of_mapM h hp
  obtain ⟨directory', hlocate', hinside, -⟩ := loadProject_eq_ok.mp hmodel
  obtain rfl := Except.ok.inj (hlocate.symm.trans hlocate')
  exact hinside

end

end Solution

/-! ### Documents -/

section

variable {disk : Disk} {root : String} {paths : List String} {documents : Keyed Document}

/-- The document that a load makes of the file under a normal form, if there is one. -/
def Disk.documentAt? (disk : Disk) (root key : String) : Option Document :=
  match disk.readSource (Path.join root key) with
  | .ok (some text) => some ⟨key, text, 0⟩
  | _ => none

/-- One more file is looked at: what is found becomes a document. -/
def Disk.readDocument (disk : Disk) (root : String) (documents : Keyed Document) (path : String) :
    Except Error (Keyed Document) :=
  (disk.readSource (Path.join root path)).map fun onDisk =>
    onDisk.elim documents fun text => documents.insert path ⟨path, text, 0⟩

theorem Disk.readDocuments_eq_foldlM (disk : Disk) (root : String) (paths : List String) :
    disk.readDocuments root paths = paths.foldlM (disk.readDocument root) [] := by
  rw [readDocuments]
  refine congrArg (fun step => List.foldlM step [] paths) (funext fun documents => funext fun path => ?_)
  rw [readDocument]
  rcases disk.readSource (Path.join root path) with _ | _ | _ <;> rfl

theorem Disk.get?_readDocument {start next : Keyed Document} {path : String}
    (h : disk.readDocument root start path = .ok next) :
    (∃ onDisk, disk.readSource (Path.join root path) = .ok onDisk) ∧
      ∀ key, next.get? key =
        if key = path then (disk.documentAt? root key).or (start.get? key) else start.get? key := by
  obtain ⟨onDisk, honDisk, rfl⟩ := map_eq_ok.mp h
  refine ⟨⟨onDisk, honDisk⟩, fun key => ?_⟩
  split
  · rename_i hkey
    subst hkey
    rw [documentAt?, honDisk]
    cases onDisk with
    | none => rfl
    | some text => exact Keyed.get?_insert_self ..
  · rename_i hne
    cases onDisk with
    | none => rfl
    | some text => exact Keyed.get?_insert_of_ne _ _ hne

/-- Reading on from some documents adds those of the files under the given paths. -/
theorem Disk.get?_foldlM_readDocument {start : Keyed Document}
    (h : paths.foldlM (disk.readDocument root) start = .ok documents) :
    (∀ key ∈ paths, ∃ onDisk, disk.readSource (Path.join root key) = .ok onDisk) ∧
      ∀ key, documents.get? key =
        if key ∈ paths then (disk.documentAt? root key).or (start.get? key) else start.get? key := by
  induction paths generalizing start with
  | nil =>
      obtain rfl := Except.ok.inj h
      simp
  | cons path rest ih =>
      rw [List.foldlM_cons] at h
      obtain ⟨next, hnext, h⟩ := bind_eq_ok.mp h
      obtain ⟨hpath, hget⟩ := get?_readDocument hnext
      obtain ⟨hrest, hget'⟩ := ih h
      refine ⟨List.forall_mem_cons.mpr ⟨hpath, hrest⟩, fun key => ?_⟩
      rw [hget', hget]
      by_cases hkey : key = path
      · subst hkey
        simp only [if_pos, List.mem_cons_self, ← Option.or_assoc, Option.or_self, ite_self]
      · simp [hkey]

/-- The documents that are read are those of the files under the given paths. -/
theorem Disk.readDocuments_eq_ok (h : disk.readDocuments root paths = .ok documents) :
    (∀ key ∈ paths, ∃ onDisk, disk.readSource (Path.join root key) = .ok onDisk) ∧
      ∀ key, documents.get? key = if key ∈ paths then disk.documentAt? root key else none := by
  rw [readDocuments_eq_foldlM] at h
  obtain ⟨hread, hget⟩ := get?_foldlM_readDocument h
  refine ⟨hread, fun key => (hget key).trans ?_⟩
  simp [Keyed.get?]

theorem Disk.mem_of_readDocuments (h : disk.readDocuments root paths = .ok documents) {key : String}
    {document : Document} (hdocument : documents.get? key = some document) :
    key ∈ paths ∧ disk.documentAt? root key = some document := by
  have hkey := ((readDocuments_eq_ok h).2 key).symm.trans hdocument
  split at hkey
  · exact ⟨‹_›, hkey⟩
  · cases hkey

theorem Disk.documentAt?_eq_some {key : String} {document : Document}
    (h : disk.documentAt? root key = some document) :
    document.path = key ∧ document.version = 0 ∧
      disk.read (Path.join root key) = .ok document.text.toUTF8 := by
  rw [documentAt?] at h
  split at h
  · rename_i text hread
    obtain rfl := Option.some.inj h
    exact ⟨rfl, rfl, Disk.read_of_readSource hread⟩
  · cases h

/-- Where a file can be read, a load that succeeds has its document. -/
theorem Disk.exists_documentAt? {key : String} {content : ByteArray} {onDisk : Option String}
    (hread : disk.readSource (Path.join root key) = .ok onDisk)
    (hfile : disk.read (Path.join root key) = .ok content) :
    ∃ document, disk.documentAt? root key = some document := by
  cases onDisk with
  | none =>
      have hmissing := Disk.read_of_readSource_none hread
      rw [hfile] at hmissing
      cases hmissing
  | some text => exact ⟨⟨key, text, 0⟩, by rw [documentAt?, hread]⟩

end

/-! ### Loads -/

theorem Store.load_eq_ok {engine : Engine} {store after : Store} {id : Nat} {path : String}
    {summary : LoadSummary} (h : store.load engine id path = (.ok summary, after)) :
    ∃ snapshot, LoadOf engine store id path snapshot ∧ after = store.publish snapshot := by
  rw [load] at h
  cases hsettled : (store.prepareLoad engine id path).settled with
  | error error => rw [hsettled] at h; cases h
  | ok pending =>
      rw [hsettled] at h
      obtain ⟨-, hafter⟩ := Prod.mk.inj h
      exact ⟨pending.snapshot, loadOf_of_prepareLoad (Outcome.settled_eq_ok.mp hsettled),
        hafter.symm⟩

/-- A file is a source of one of the projects that a descriptor names. -/
def Descriptor.HasSource (descriptor : Descriptor) (disk : Disk) (root file : Place) : Prop :=
  ∃ p ∈ descriptor.projects, ∃ directory,
    disk.locate (Path.join (ofNames root) p.path) = .ok directory ∧
      disk.IsSource CSharp.extensions directory file

/-- The documents of a snapshot are the sources below its root, each under its own path. -/
def Snapshot.HoldsSources (snapshot : Snapshot) (disk : Disk) (descriptor : Descriptor)
    (root : Place) : Prop :=
  ∀ key, (∃ document, snapshot.document? key = some document) ↔
    ∃ names, key = ofRelative names ∧ descriptor.HasSource disk root (root ++ names)

/-- A solution with its members, as they are read from a descriptor on a disk without links. -/
structure Solution.ReadFrom (solution : Solution) (disk : Disk) (place : Place) (descriptor : Descriptor)
    (members : List String) : Prop where
  tidy : disk.Tidy
  linkFree : disk.LinkFree []
  isFile : ∃ content, disk.top.find? place = some (.file content)
  ne_nil : place ≠ []
  root_eq : solution.root = ofNames place.dropLast
  projects : descriptor.projects.mapM (Solution.loadProject disk place.dropLast CSharp.language
    CSharp.extensions) = .ok solution.projects
  listed : solution.memberPaths disk = .ok members

theorem Solution.readFrom_of_load {parser : CSharp.Parser} {disk : Disk} {path : String}
    {solution : Solution} {members : List String} (htidy : disk.Tidy) (hfree : disk.LinkFree [])
    (hsolution : (CSharp.engine parser).loadSolution disk path = .done solution)
    (hmembers : solution.memberPaths disk = .ok members) :
    ∃ place text descriptor, disk.locate path = .ok place ∧
      disk.read (ofNames place) = .ok text.toUTF8 ∧ Descriptor.parse text = .ok descriptor ∧
      solution.ReadFrom disk place descriptor members := by
  obtain ⟨place, text, descriptor, hplace, hread, hparse, hroot, hprojects⟩ :=
    Solution.load_eq_ok (Outcome.ofExcept_eq_done.mp hsolution)
  -- The root of the disk is a folder, so that the descriptor is none.
  have hne : place ≠ [] := by
    rintro rfl
    exact Disk.read_join_empty disk "/" text.toUTF8 hread
  obtain ⟨entry, hentry⟩ := hfree.exists_of_locate hplace
  have hfile := hfree.find?_of_read (fun name hmem => (htidy.names _ _ hentry name hmem).1) hread
  exact ⟨place, text, descriptor, hplace, hread, hparse, htidy, hfree, ⟨_, hfile⟩, hne, hroot,
    hprojects, hmembers⟩

namespace Solution.ReadFrom

variable {disk : Disk} {place : Place} {solution : Solution} {descriptor : Descriptor}
  {members : List String} (h : solution.ReadFrom disk place descriptor members)
include h

theorem isName_root : ∀ name ∈ place.dropLast, IsName name := by
  obtain ⟨content, hfile⟩ := h.isFile
  exact fun name hmem => (h.tidy.names _ _ hfile name (List.dropLast_subset _ hmem)).1

theorem join_root {names : List String} (hne : names ≠ []) (hnames : ∀ name ∈ names, IsName name) :
    Path.join solution.root (ofRelative names) = ofNames (place.dropLast ++ names) := by
  rw [h.root_eq, Path.join_ofNames h.isName_root hne hnames]

theorem mem_files {path : String} :
    path ∈ solution.files ↔
      ∃ file, descriptor.HasSource disk place.dropLast file ∧ ofNames file = path := by
  rw [Solution.mem_files_of_load h.projects]
  constructor
  · rintro ⟨p, hp, directory, hlocate, file, hfile, rfl⟩
    exact ⟨file, ⟨p, hp, directory, hlocate,
      (Disk.mem_sources_iff_isSource h.tidy.distinct).mp hfile⟩, rfl⟩
  · rintro ⟨file, ⟨p, hp, directory, hlocate, hsource⟩, rfl⟩
    exact ⟨p, hp, directory, hlocate, file,
      (Disk.mem_sources_iff_isSource h.tidy.distinct).mpr hsource, rfl⟩

/-- The sources lie below the root, which is a folder. -/
theorem below_root {file : Place} (hsource : descriptor.HasSource disk place.dropLast file) :
    ∃ names, names ≠ [] ∧ (∀ name ∈ names, IsName name) ∧ file = place.dropLast ++ names := by
  obtain ⟨p, hp, directory, hlocate, ⟨source, hfile⟩, -, below, rfl, -⟩ := hsource
  obtain ⟨inner, rfl⟩ := Solution.isPrefix_of_load h.projects hp hlocate
  rw [List.append_assoc] at hfile ⊢
  refine ⟨inner ++ below, ?_, fun name hmem =>
    (h.tidy.names _ _ hfile name (List.mem_append_right _ hmem)).1, rfl⟩
  intro hnil
  rw [hnil, List.append_nil] at hfile
  obtain ⟨content, hplace⟩ := h.isFile
  obtain ⟨init, last, rfl⟩ := (List.eq_nil_or_concat place).resolve_left h.ne_nil
  rw [List.concat_eq_append, List.dropLast_concat] at hfile
  rw [List.concat_eq_append, Entry.find?_append, hfile] at hplace
  cases hplace

theorem names_of_source {names : Place}
    (hsource : descriptor.HasSource disk place.dropLast (place.dropLast ++ names)) :
    names ≠ [] ∧ ∀ name ∈ names, IsName name := by
  obtain ⟨_, hne, hnames, heq⟩ := h.below_root hsource
  obtain rfl := List.append_cancel_left heq
  exact ⟨hne, hnames⟩

/-- Each source has a member; without a backslash in its path below the root that is the path itself. -/
theorem exists_member {names : Place}
    (hsource : descriptor.HasSource disk place.dropLast (place.dropLast ++ names)) :
    ∃ key ∈ members, disk.normal? solution.root (ofNames (place.dropLast ++ names)) = some key ∧
      ('\\' ∉ (ofRelative names).toList → key = ofRelative names) := by
  obtain ⟨key, hkey, hnormal⟩ :=
    (Solution.memberPaths_eq_ok h.listed).2.1 _ (h.mem_files.mpr ⟨_, hsource, rfl⟩)
  refine ⟨key, hkey, hnormal, fun hslash => ?_⟩
  -- The path of the root has no backslash either, since the file was found to lie below it.
  rw [h.root_eq] at hnormal
  have hclean := (h.linkFree.notMem_of_normal? h.isName_root (Path.isAbsolute_ofNames _) hnormal).1
  have hwhole : '\\' ∉ (ofNames (place.dropLast ++ names)).toList := by
    rw [Path.mem_toList_ofNames (by decide)] at hclean ⊢
    rw [ofRelative, Path.mem_toList_intercalate (by decide)] at hslash
    rintro ⟨name, hmem, hchar⟩
    rcases List.mem_append.mp hmem with hmem | hmem
    · exact hclean ⟨name, hmem, hchar⟩
    · exact hslash ⟨name, hmem, hchar⟩
  obtain ⟨-, -, -, -, ⟨content, hfile⟩, -⟩ := hsource
  have hself := h.linkFree.normal?_ofNames
    (fun name hmem => (h.tidy.names _ _ hfile name hmem).1) hwhole
  exact Option.some.inj (hnormal.symm.trans hself)

/-- Each member comes from a source and has no backslash. -/
theorem exists_source {key : String} (hkey : key ∈ members) :
    '\\' ∉ key.toList ∧ ∃ names, descriptor.HasSource disk place.dropLast (place.dropLast ++ names) ∧
      disk.normal? solution.root (ofNames (place.dropLast ++ names)) = some key := by
  obtain ⟨path, hpath, hnormal⟩ := (Solution.memberPaths_eq_ok h.listed).2.2 key hkey
  obtain ⟨file, hsource, rfl⟩ := h.mem_files.mp hpath
  obtain ⟨names, -, -, rfl⟩ := h.below_root hsource
  refine ⟨?_, names, hsource, hnormal⟩
  rw [h.root_eq] at hnormal
  exact (h.linkFree.notMem_of_normal? h.isName_root (Path.isAbsolute_ofNames _) hnormal).2

section

variable {documents : Keyed Document}
  (hdocuments : disk.readDocuments solution.root members = .ok documents)
include hdocuments

/-- A document has the text of the file that its key denotes. -/
theorem file_of_document {key : String} {document : Document}
    (hdocument : documents.get? key = some document) :
    document.path = key ∧ document.version = 0 ∧ ∃ names, (∀ name ∈ names, IsName name) ∧
      key = ofRelative names ∧
      disk.top.find? (place.dropLast ++ names) = some (.file document.text.toUTF8) := by
  obtain ⟨hkey, hfound⟩ := Disk.mem_of_readDocuments hdocuments hdocument
  obtain ⟨hpath, hversion, hread⟩ := Disk.documentAt?_eq_some hfound
  refine ⟨hpath, hversion, ?_⟩
  obtain ⟨_, hnormal⟩ := Solution.exists_normal?_of_mem h.listed hkey
  obtain ⟨names, hne, hnames, rfl⟩ := Disk.isKey_of_read hnormal hread
  refine ⟨names, hnames, rfl, ?_⟩
  rw [h.join_root hne hnames] at hread
  refine h.linkFree.find?_of_read (fun name hmem => ?_) hread
  exact (List.mem_append.mp hmem).elim (h.isName_root name) (hnames name)

/-- A source without a backslash in its path below the root is stored under that path. -/
theorem exists_document {names : Place}
    (hsource : descriptor.HasSource disk place.dropLast (place.dropLast ++ names))
    (hslash : '\\' ∉ (ofRelative names).toList) :
    ∃ document, documents.get? (ofRelative names) = some document := by
  obtain ⟨hreads, hget⟩ := Disk.readDocuments_eq_ok hdocuments
  obtain ⟨_, hkey, -, hself⟩ := h.exists_member hsource
  obtain rfl := hself hslash
  obtain ⟨hne, hnames⟩ := h.names_of_source hsource
  obtain ⟨onDisk, honDisk⟩ := hreads _ hkey
  obtain ⟨-, -, -, -, ⟨content, hfile⟩, -⟩ := hsource
  rcases h.tidy.read_ofNames (by simp [hne]) hfile with hfound | hlong
  · obtain ⟨document, hdocument⟩ := Disk.exists_documentAt? honDisk (h.join_root hne hnames ▸ hfound)
    refine ⟨document, (hget _).trans ?_⟩
    rw [if_pos hkey, hdocument]
  · -- A path that is too long would have made the load fail.
    rw [h.join_root hne hnames, Disk.readSource, hlong] at honDisk
    cases honDisk

/-- The documents are the sources exactly when no path of a source has a backslash. -/
theorem holdsSources_iff {snapshot : Snapshot} (hsnapshot : snapshot.documents = documents) :
    snapshot.HoldsSources disk descriptor place.dropLast ↔
      ∀ names, descriptor.HasSource disk place.dropLast (place.dropLast ++ names) →
        '\\' ∉ (ofRelative names).toList := by
  subst hsnapshot
  constructor
  · intro hexact names hsource
    obtain ⟨document, hdocument⟩ := (hexact _).mpr ⟨names, rfl, hsource⟩
    exact (h.exists_source (Disk.mem_of_readDocuments hdocuments hdocument).1).1
  · intro hclean key
    constructor
    · rintro ⟨document, hdocument⟩
      obtain ⟨-, names, hsource, hnormal⟩ :=
        h.exists_source (Disk.mem_of_readDocuments hdocuments hdocument).1
      obtain ⟨_, -, hother, hself⟩ := h.exists_member hsource
      obtain rfl := Option.some.inj (hnormal.symm.trans hother)
      exact ⟨names, hself (hclean names hsource), hsource⟩
    · rintro ⟨names, rfl, hsource⟩
      exact h.exists_document hdocuments hsource (hclean names hsource)

end

end Solution.ReadFrom

/-- A load with the engine for C# on a disk without links. Its documents stand under different keys, are
as of the first version and have exactly the texts of the files that their keys denote. Every source
without a backslash in its path below the root is among them, under that path; and they are exactly the
sources when no source has one. -/
theorem load_holds_sources {parser : CSharp.Parser} {store after : Store} {id : Nat} {path : String}
    {summary : LoadSummary} (htidy : store.disk.Tidy) (hfree : store.disk.LinkFree [])
    (h : store.load (CSharp.engine parser) id path = (.ok summary, after)) :
    ∃ place text descriptor snapshot, store.disk.locate path = .ok place ∧
      store.disk.read (ofNames place) = .ok text.toUTF8 ∧
      Descriptor.parse text = .ok descriptor ∧ after = store.publish snapshot ∧
      snapshot.root = ofNames place.dropLast ∧ snapshot.documents.keys.Nodup ∧
      (∀ key document, snapshot.document? key = some document →
        document.path = key ∧ document.version = 0 ∧ ∃ names, (∀ name ∈ names, IsName name) ∧
          key = ofRelative names ∧ store.disk.top.find? (place.dropLast ++ names) =
            some (.file document.text.toUTF8)) ∧
      (∀ file, descriptor.HasSource store.disk place.dropLast file →
        ∃ names, names ≠ [] ∧ file = place.dropLast ++ names ∧
          ('\\' ∉ (ofRelative names).toList →
            ∃ document, snapshot.document? (ofRelative names) = some document)) ∧
      (snapshot.HoldsSources store.disk descriptor place.dropLast ↔
        ∀ names, descriptor.HasSource store.disk place.dropLast (place.dropLast ++ names) →
          '\\' ∉ (ofRelative names).toList) := by
  obtain ⟨snapshot, hload, rfl⟩ := Store.load_eq_ok h
  obtain ⟨solution, members, hsolution, hmembers, hdocuments, -, hroot⟩ := hload.found
  obtain ⟨place, text, descriptor, hplace, hread, hparse, hfrom⟩ :=
    Solution.readFrom_of_load htidy hfree hsolution hmembers
  refine ⟨place, text, descriptor, snapshot, hplace, hread, hparse, rfl, hroot.trans hfrom.root_eq,
    hload.wellFormed.filed.ascending.nodup_keys,
    fun key document hdocument => hfrom.file_of_document hdocuments hdocument,
    fun file hsource => ?_, hfrom.holdsSources_iff hdocuments rfl⟩
  obtain ⟨names, hne, -, rfl⟩ := hfrom.below_root hsource
  exact ⟨names, hne, rfl, hfrom.exists_document hdocuments hsource⟩

/-! ### A folder of files -/

/-- A disk with nothing but some files in its root folder. -/
def flatDisk (files : List (String × String)) : Disk :=
  { top := .folder (files.map fun file => (file.1, .file file.2.toUTF8)) }

theorem find?_flatDisk {files : List (String × String)} {place : Place} {entry : Entry}
    (h : (flatDisk files).top.find? place = some entry) :
    place = [] ∨ ∃ file ∈ files, place = [file.1] ∧ entry = .file file.2.toUTF8 := by
  cases place with
  | nil => exact .inl rfl
  | cons name rest =>
      obtain ⟨children, child, heq, hchild, hrest⟩ := Entry.find?_cons_eq_some.mp h
      obtain rfl := Entry.folder.inj heq
      obtain ⟨file, hmem, hfile⟩ := List.mem_map.mp (Entry.mem_of_child? hchild)
      obtain ⟨rfl, rfl⟩ := Prod.mk.inj hfile
      obtain ⟨rfl, rfl⟩ := Entry.find?_file hrest
      exact .inr ⟨file, hmem, rfl, rfl⟩

section

variable {files : List (String × String)} (hdistinct : (files.map Prod.fst).Nodup)
  (hnames : ∀ file ∈ files, Disk.CanName file.1)
include hdistinct hnames

theorem tidy_flatDisk : (flatDisk files).Tidy := by
  constructor
  · intro place children h
    rcases find?_flatDisk h with rfl | ⟨_, _, _, hfile⟩
    · obtain rfl := Entry.folder.inj (Option.some.inj h)
      rw [List.map_map]
      exact hdistinct
    · cases hfile
  · intro place entry h name hname
    rcases find?_flatDisk h with rfl | ⟨file, hmem, rfl, -⟩
    · cases hname
    · obtain rfl := List.mem_singleton.mp hname
      exact hnames file hmem

end

theorem linkFree_flatDisk (files : List (String × String)) : (flatDisk files).LinkFree [] := by
  intro name rest target hlink
  obtain ⟨entry, hentry, hkind⟩ := Option.map_eq_some_iff.mp hlink
  rcases find?_flatDisk hentry with hnil | ⟨_, _, _, rfl⟩
  · cases hnil
  · cases hkind

/-- What is published of such a disk when one of the files is a descriptor of one project. -/
def flatSnapshot (id : Nat) (file project : String) (documents : Keyed Document) : Snapshot :=
  ⟨id, 0, "/", ofNames [file], [⟨project, "csharp", [], ".", documents.keys⟩], documents, ""⟩

section

variable {files : List (String × String)} {file text project : String} {parser : CSharp.Parser}

theorem locate_root_flatDisk : (flatDisk files).locate (Path.join (ofNames []) ".") = .ok [] := by cbv

theorem normal?_root_flatDisk : (flatDisk files).normal? "/" "/" = some "" := by cbv

theorem describe_flatDisk {sources : List String} (documents : Keyed Document) :
    Solution.describe (flatDisk files) ⟨"/", [⟨project, "csharp", [], "/", sources⟩]⟩ documents =
      .ok [⟨project, "csharp", [], ".", documents.keys⟩] :=
  Solution.describe_of_root documents normal?_root_flatDisk

variable (htidy : (flatDisk files).Tidy)
  (hfile : (flatDisk files).top.find? [file] = some (.file text.toUTF8))
  (hadmissible : Disk.admissible (ofNames [file]) = .ok ())
include htidy hfile

theorem locate_flatDisk : (flatDisk files).locate (ofNames [file]) = .ok [file] :=
  htidy.locate_ofNames (List.cons_ne_nil _ _) hfile (by simp)

include hadmissible

theorem read_flatDisk : (flatDisk files).read (ofNames [file]) = .ok text.toUTF8 := by
  rw [Disk.read, Disk.resolve, hadmissible]
  simp [bind, Except.bind, locate_flatDisk htidy hfile, hfile]

/-- Without projects the solution has no files. -/
theorem loadSolution_flatDisk_of_empty (hempty : Descriptor.parse text = .ok ⟨[]⟩) :
    (CSharp.engine parser).loadSolution (flatDisk files) (ofNames [file]) = .done ⟨"/", []⟩ := by
  refine Outcome.ofExcept_eq_done.mpr ?_
  rw [Solution.load_of_read (locate_flatDisk htidy hfile) (read_flatDisk htidy hfile hadmissible) hempty]
  rfl

variable (hparse : Descriptor.parse text = .ok ⟨[⟨project, ".", none, []⟩]⟩)
include hparse

theorem loadSolution_flatDisk {sources : List Place}
    (hsources : (flatDisk files).sources CSharp.extensions [] = sources) :
    (CSharp.engine parser).loadSolution (flatDisk files) (ofNames [file]) =
      .done ⟨"/", [⟨project, "csharp", [], "/", sources.map ofNames⟩]⟩ := by
  have hproject : Solution.loadProject (flatDisk files) [] CSharp.language CSharp.extensions
      ⟨project, ".", none, []⟩ = .ok ⟨project, "csharp", [], "/", sources.map ofNames⟩ :=
    Solution.loadProject_eq_ok.mpr ⟨[], locate_root_flatDisk, List.prefix_rfl, by rw [hsources]; rfl⟩
  refine Outcome.ofExcept_eq_done.mpr ?_
  rw [Solution.load_of_read (locate_flatDisk htidy hfile) (read_flatDisk htidy hfile hadmissible) hparse]
  simp [Solution.loadProjects, hproject, bind, Except.bind, pure, Except.pure, Except.map, ofNames]

/-- A load of a folder of files, by what is read there. -/
theorem prepareLoad_flatDisk (id : Nat) {sources : List Place} {members : List String}
    {documents : Keyed Document} {published : Option Snapshot}
    (hsources : (flatDisk files).sources CSharp.extensions [] = sources)
    (hmembers : Solution.memberPaths (flatDisk files)
      ⟨"/", [⟨project, "csharp", [], "/", sources.map ofNames⟩]⟩ = .ok members)
    (hdocuments : (flatDisk files).readDocuments "/" members = .ok documents) :
    Store.prepareLoad (CSharp.engine parser) { disk := flatDisk files, published } id (ofNames [file]) =
      .done ⟨flatSnapshot id file project documents⟩ := by
  have hexists : (flatDisk files).pathExists (ofNames [file]) = true := by
    rw [Disk.pathExists, Disk.resolve, hadmissible]
    simp [bind, Except.bind, locate_flatDisk htidy hfile]
  have hcanonical : (flatDisk files).canonical? (ofNames [file]) = some (ofNames [file]) := by
    rw [Disk.canonical?, locate_flatDisk htidy hfile]
  exact Store.prepareLoad_of_found { disk := flatDisk files, published } id hexists hcanonical
    (loadSolution_flatDisk htidy hfile hadmissible hparse hsources) hmembers hdocuments
    (describe_flatDisk documents)

theorem load_flatDisk (id : Nat) {sources : List Place} {members : List String}
    {documents : Keyed Document}
    (hsources : (flatDisk files).sources CSharp.extensions [] = sources)
    (hmembers : Solution.memberPaths (flatDisk files)
      ⟨"/", [⟨project, "csharp", [], "/", sources.map ofNames⟩]⟩ = .ok members)
    (hdocuments : (flatDisk files).readDocuments "/" members = .ok documents) :
    Store.load (CSharp.engine parser) { disk := flatDisk files } id (ofNames [file]) =
      (.ok ⟨id, 1, documents.length, 0, [project]⟩,
        { disk := flatDisk files, published := some (flatSnapshot id file project documents) }) := by
  rw [Store.load,
    prepareLoad_flatDisk htidy hfile hadmissible hparse id hsources hmembers hdocuments]
  rfl

end

/-- A descriptor of one project in its own folder. -/
def projectText (project : String) : String :=
  "\x7b\"projects\":[\x7b\"name\":\"" ++ project ++ "\"\x7d]\x7d"

theorem parse_of_ofText {text : String} {descriptor : Descriptor}
    (h : (Descriptor.ofText text).toOption = some descriptor) :
    Descriptor.parse text = .ok descriptor := by
  rw [Descriptor.parse, toOption_eq_some.mp h]

theorem parse_projectText {project : String} (h : project = "P" ∨ project = "Q") :
    Descriptor.parse (projectText project) = .ok ⟨[⟨project, ".", none, []⟩]⟩ := by
  rcases h with rfl | rfl
  · exact parse_of_ofText (by decide +kernel)
  · exact parse_of_ofText (by decide +kernel)

theorem canName_d : Disk.CanName "d" := ⟨by simp [IsName], by decide, by decide⟩

/-- A disk with a descriptor and one more file. -/
def projectDisk (text name : String) : Disk := flatDisk [("d", text), (name, "x")]

section

variable {text name : String}

theorem tidy_projectDisk (hname : name ≠ "d") (hcan : Disk.CanName name) :
    (projectDisk text name).Tidy :=
  tidy_flatDisk (by simp [Ne.symm hname]) (by simp [canName_d, hcan])

theorem load_projectDisk (htidy : (projectDisk text name).Tidy)
    (hparse : Descriptor.parse text = .ok ⟨[⟨"P", ".", none, []⟩]⟩) {key : String}
    {documents : Keyed Document}
    (hsources : (projectDisk text name).sources CSharp.extensions [] = [[name]])
    (hnormal : (projectDisk text name).normal? "/" (ofNames [name]) = some key)
    (hdocuments : (projectDisk text name).readDocuments "/" [key] = .ok documents) :
    Store.load (CSharp.engine fun _ => none) { disk := projectDisk text name } 0 (ofNames ["d"]) =
      (.ok ⟨0, 1, documents.length, 0, ["P"]⟩,
        { disk := projectDisk text name, published := some (flatSnapshot 0 "d" "P" documents) }) :=
  load_flatDisk htidy rfl (by cbv) hparse 0 hsources
    (Solution.memberPaths_of_single rfl hnormal) hdocuments

/-- The other file is a source if its name says so. -/
theorem hasSource_projectDisk (hname : name ≠ "d")
    (hextension : Path.hasExtension CSharp.extensions (ofNames [name]) = true) :
    Descriptor.HasSource ⟨[⟨"P", ".", none, []⟩]⟩ (projectDisk text name) [] [name] := by
  have hfile : (projectDisk text name).top.find? [name] = some (.file "x".toUTF8) := by
    simp [projectDisk, flatDisk, Entry.find?, Entry.child?, Ne.symm hname]
  exact ⟨_, List.mem_singleton.mpr rfl, [], locate_root_flatDisk, ⟨_, hfile⟩, hextension, [name], rfl,
    by simp⟩

theorem sources_plain : (projectDisk text "a.cs").sources CSharp.extensions [] = [["a.cs"]] := by cbv

theorem normal?_plain : (projectDisk text "a.cs").normal? "/" (ofNames ["a.cs"]) = some "a.cs" := by cbv

theorem readDocuments_plain :
    (projectDisk text "a.cs").readDocuments "/" ["a.cs"] = .ok [("a.cs", ⟨"a.cs", "x", 0⟩)] :=
  Disk.readDocuments_of_single (by cbv)

theorem sources_split : (projectDisk text "a\\b.cs").sources CSharp.extensions [] = [["a\\b.cs"]] := by
  cbv

theorem normal?_split :
    (projectDisk text "a\\b.cs").normal? "/" (ofNames ["a\\b.cs"]) = some "a/b.cs" := by
  cbv

theorem readDocuments_split : (projectDisk text "a\\b.cs").readDocuments "/" ["a/b.cs"] = .ok [] := by
  have hpath : Path.join "/" "a/b.cs" = "/a/b.cs" := by decide
  have hadmissible : Disk.admissible "/a/b.cs" = .ok () :=
    Disk.admissible_eq_ok.mpr ⟨by simp, by decide, by decide⟩
  have hlocate : (projectDisk text "a\\b.cs").locate "/a/b.cs" = .error .notFound := by cbv
  have hread : (projectDisk text "a\\b.cs").readSource (Path.join "/" "a/b.cs") = .ok none := by
    rw [hpath, Disk.readSource, Disk.read, Disk.resolve, hadmissible]
    simp only [bind, Except.bind, hlocate]
  rw [Disk.readDocuments, List.foldlM_cons, hread]
  rfl

end

/-- The documents of a small project are its sources when the one source has no backslash. -/
theorem plain_source_loaded :
    (flatSnapshot 0 "d" "P" [("a.cs", ⟨"a.cs", "x", 0⟩)]).HoldsSources
      (projectDisk (projectText "P") "a.cs") ⟨[⟨"P", ".", none, []⟩]⟩ [] := by
  have hcan : Disk.CanName "a.cs" := ⟨by simp [IsName], by decide, by decide⟩
  have htidy : (projectDisk (projectText "P") "a.cs").Tidy := tidy_projectDisk (by decide) hcan
  have hfile : (projectDisk (projectText "P") "a.cs").top.find? ["d"] =
      some (.file (projectText "P").toUTF8) := rfl
  obtain ⟨place, text, descriptor, snapshot, hplace, hread, hparse, hafter, -, -, -, -, hexact⟩ :=
    load_holds_sources htidy (linkFree_flatDisk _)
      (load_projectDisk htidy (parse_projectText (.inl rfl)) sources_plain normal?_plain
        readDocuments_plain)
  obtain rfl := Except.ok.inj ((locate_flatDisk htidy hfile).symm.trans hplace)
  obtain rfl : flatSnapshot 0 "d" "P" _ = snapshot := Option.some.inj (congrArg Store.published hafter)
  obtain rfl : projectText "P" = text := by
    rw [show (projectDisk (projectText "P") "a.cs").read (ofNames ["d"]) = _ from
      read_flatDisk htidy hfile (by cbv)] at hread
    exact String.toByteArray_inj.mp (Except.ok.inj hread)
  obtain rfl := Except.ok.inj ((parse_projectText (.inl rfl)).symm.trans hparse)
  have hroot : (["d"] : Place).dropLast = [] := rfl
  rw [hroot] at hexact
  rw [hexact]
  rintro names ⟨p, hp, directory, -, ⟨content, hfound⟩, hextension, -⟩
  rcases find?_flatDisk hfound with rfl | ⟨file, hmem, heq, -⟩
  · decide
  · rw [List.nil_append] at heq
    subst heq
    rcases List.mem_cons.mp hmem with rfl | hmem
    · decide
    · obtain rfl := List.mem_singleton.mp hmem
      decide

/-- A source with a backslash in its name is not loaded: its path is taken for that of a file in a folder,
and there is none. -/
theorem split_source_missed : ∃ summary after,
    Store.load (CSharp.engine fun _ => none) { disk := projectDisk (projectText "P") "a\\b.cs" } 0
        (ofNames ["d"]) = (.ok summary, after) ∧
      after.published = some (flatSnapshot 0 "d" "P" []) ∧
      (projectDisk (projectText "P") "a\\b.cs").Tidy ∧
      (projectDisk (projectText "P") "a\\b.cs").LinkFree [] ∧
      Descriptor.HasSource ⟨[⟨"P", ".", none, []⟩]⟩ (projectDisk (projectText "P") "a\\b.cs") []
        ["a\\b.cs"] := by
  have hcan : Disk.CanName "a\\b.cs" := ⟨by simp [IsName], by decide, by decide⟩
  have hne : "a\\b.cs" ≠ "d" := by decide
  exact ⟨_, _, load_projectDisk (tidy_projectDisk hne hcan) (parse_projectText (.inl rfl)) sources_split
      normal?_split readDocuments_split, rfl, tidy_projectDisk hne hcan, linkFree_flatDisk _,
    hasSource_projectDisk hne (by decide)⟩

end CodeIntel
