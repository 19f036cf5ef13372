import CodeIntel.Proofs.Workspace.Loading

/-! The folders of projects. On a disk without links and backslashes the project that a snapshot has for
one of its descriptor names the folder by the names from the root on, and it lists the documents that
lie below these names. So the file of a document that was found for a project is listed by it, unless
the project has the file itself for its folder. -/

namespace CodeIntel

open CodeIntel.Path (ofNames ofRelative IsName)

/-- A disk that a file system can hold, without links and without backslashes in its names. -/
structure Disk.Plain (disk : Disk) : Prop where
  tidy : disk.Tidy
  linkFree : disk.LinkFree []
  notMem : ∀ place entry, disk.top.find? place = some entry → ∀ name ∈ place, '\\' ∉ name.toList

/-- The folder below the root to which some names lead, as projects have it. -/
def folderName (names : Place) : String := if ofRelative names = "" then "." else ofRelative names

/-! ### Paths below a folder -/

namespace Path

variable {names others : Place}

theorem ofRelative_append (hne : names ≠ []) (hne' : others ≠ []) :
    ofRelative (names ++ others) = ofRelative names ++ "/" ++ ofRelative others :=
  String.intercalate_append_of_ne_nil hne hne'

/-- Different names make different normal forms. -/
theorem ofRelative_inj (hnames : ∀ name ∈ names, IsName name) (hothers : ∀ name ∈ others, IsName name)
    (h : ofRelative names = ofRelative others) : names = others := by
  have hparts := congrArg parts h
  rw [parts_ofRelative hnames, parts_ofRelative hothers] at hparts
  exact List.map_injective_iff.mpr (fun _ _ hname => Part.name.inj hname) hparts

end Path

section

variable {folder names : Place}

theorem folderName_nil : folderName [] = "." := by decide

theorem folderName_of_ne_nil (hne : folder ≠ []) (hfolder : ∀ name ∈ folder, IsName name) :
    folderName folder = ofRelative folder := by
  have hkey : Disk.IsKey (ofRelative folder) := ⟨folder, hne, hfolder, rfl⟩
  rw [folderName, if_neg hkey.segments.1]

/-- A path lies below a folder when its names go on from those of the folder. -/
theorem isBelow_folderName (hfolder : ∀ name ∈ folder, IsName name) (hne : names ≠ [])
    (hnames : ∀ name ∈ names, IsName name) :
    isBelow (folderName folder) (ofRelative names) = true ↔ ∃ rest, rest ≠ [] ∧ names = folder ++ rest := by
  rcases List.eq_nil_or_concat folder with rfl | ⟨init, last, hlast⟩
  · rw [folderName_nil]
    exact iff_of_true rfl ⟨names, hne, rfl⟩
  · have hfolderNe : folder ≠ [] := by simp [hlast]
    have hhere : ofRelative folder ≠ "." := by
      intro hdot
      have hsegments := Path.segments_ofRelative hfolderNe hfolder
      rw [hdot] at hsegments
      have hmem : "." ∈ folder := hsegments ▸ by decide
      exact (hfolder "." hmem).2.1 rfl
    rw [folderName_of_ne_nil hfolderNe hfolder, isBelow, Bool.or_eq_true, beq_iff_eq, or_iff_right hhere,
      List.isPrefixOf_iff_prefix]
    constructor
    · rintro ⟨tail, htail⟩
      have hpath : ofRelative names = ofRelative folder ++ "/" ++ String.ofList tail := by
        rw [← String.toList_inj, ← htail]
        simp
      have hsegments := congrArg Path.segments hpath
      rw [Path.segments_append_slash, Path.segments_ofRelative hne hnames,
        Path.segments_ofRelative hfolderNe hfolder] at hsegments
      exact ⟨_, by simp [Path.segments, Text.pieces_ne_nil], hsegments⟩
    · rintro ⟨rest, hrest, rfl⟩
      rw [Path.ofRelative_append hfolderNe hrest]
      simp

end

/-! ### Plain disks -/

namespace Disk.Plain

variable {disk : Disk} {place root names : Place} {entry : Entry}

theorem isName (h : disk.Plain) (hfind : disk.top.find? place = some entry) :
    ∀ name ∈ place, IsName name := fun name hmem => (h.tidy.names place entry hfind name hmem).1

theorem notMem_ofNames (h : disk.Plain) (hfind : disk.top.find? place = some entry) :
    '\\' ∉ (ofNames place).toList := by
  rw [Path.mem_toList_ofNames (by decide)]
  rintro ⟨name, hmem, hslash⟩
  exact h.notMem place entry hfind name hmem hslash

/-- The path of whatever stands below a root is brought to the names from the root on. -/
theorem normal?_ofNames (h : disk.Plain) (hfind : disk.top.find? (root ++ names) = some entry) :
    disk.normal? (ofNames root) (ofNames (root ++ names)) = some (ofRelative names) :=
  h.linkFree.normal?_ofNames (h.isName hfind) (h.notMem_ofNames hfind)

end Disk.Plain

theorem plain_flatDisk {files : List (String × String)} (htidy : (flatDisk files).Tidy)
    (hslash : ∀ file ∈ files, '\\' ∉ file.1.toList) : (flatDisk files).Plain := by
  refine ⟨htidy, linkFree_flatDisk files, fun place entry h name hmem => ?_⟩
  rcases find?_flatDisk h with rfl | ⟨file, hfile, rfl, -⟩
  · cases hmem
  · rw [List.mem_singleton.mp hmem]
    exact hslash file hfile

/-! ### Projects and their folders -/

/-- The project of a snapshot for one of a descriptor whose folder stands below the root. -/
def ProjectDescriptor.placed (p : ProjectDescriptor) (folder : Place) (documents : Keyed Document) :
    Project where
  name := p.name
  language := p.language.getD CSharp.language
  references := p.references
  directory := folderName folder
  documents := documents.keys.filter (isBelow (folderName folder))

/-- Where the folder of a project stands below the root. -/
def ProjectDescriptor.StandsAt (p : ProjectDescriptor) (disk : Disk) (root folder : Place) : Prop :=
  disk.locate (Path.join (ofNames root) p.path) = .ok (root ++ folder)

theorem ProjectDescriptor.StandsAt.unique {p : ProjectDescriptor} {disk : Disk} {root folder other : Place}
    (h : p.StandsAt disk root folder) (h' : p.StandsAt disk root other) : folder = other :=
  List.append_cancel_left (Except.ok.inj (h.symm.trans h'))

namespace Solution.ReadFrom

variable {disk : Disk} {place : Place} {solution : Solution} {descriptor : Descriptor}
  {members : List String} {documents : Keyed Document} {projects : List Project}
  (h : solution.ReadFrom disk place descriptor members)
include h

/-- A source belongs to a project whose folder stands at or above it. -/
theorem exists_standsAt {names : Place}
    (hsource : descriptor.HasSource disk place.dropLast (place.dropLast ++ names)) :
    ∃ p ∈ descriptor.projects, ∃ folder, p.StandsAt disk place.dropLast folder ∧ folder <+: names ∧
      disk.IsSource CSharp.extensions (place.dropLast ++ folder) (place.dropLast ++ names) := by
  obtain ⟨p, hp, directory, hlocate, hfile⟩ := hsource
  obtain ⟨folder, rfl⟩ := isPrefix_of_load h.projects hp hlocate
  obtain ⟨below, hbelow, -⟩ := hfile.2.2
  have hprefix : place.dropLast ++ folder <+: place.dropLast ++ names := ⟨below, hbelow.symm⟩
  exact ⟨p, hp, folder, hlocate, (List.prefix_append_right_inj _).mp hprefix, hfile⟩

variable (hplain : disk.Plain)
include hplain

/-- A member is a source under its own path. -/
theorem names_of_member {key : String} (hkey : key ∈ members) :
    ∃ names, names ≠ [] ∧ (∀ name ∈ names, IsName name) ∧ key = ofRelative names ∧
      descriptor.HasSource disk place.dropLast (place.dropLast ++ names) := by
  obtain ⟨-, names, hsource, hnormal⟩ := h.exists_source hkey
  obtain ⟨hne, hnames⟩ := h.names_of_source hsource
  obtain ⟨-, -, -, -, ⟨content, hfile⟩, -⟩ := id hsource
  rw [h.root_eq, hplain.normal?_ofNames hfile] at hnormal
  exact ⟨names, hne, hnames, (Option.some.inj hnormal).symm, hsource⟩

variable (hprojects : solution.describe disk documents = .ok projects)
include hprojects

/-- The projects of a snapshot are those of the descriptor, one by one. -/
theorem forall₂_placed :
    List.Forall₂
      (fun p project => ∃ folder, p.StandsAt disk place.dropLast folder ∧ project = p.placed folder documents)
      descriptor.projects projects := by
  refine forall₂_trans ?_ (mapM_eq_ok.mp h.projects) (mapM_eq_ok.mp hprojects)
  intro p model project hmodel hproject
  obtain ⟨directory, hlocate, ⟨folder, rfl⟩, rfl⟩ := loadProject_eq_ok.mp hmodel
  obtain ⟨normal, hnormal, hproject⟩ := bind_eq_ok.mp hproject
  obtain ⟨entry, hentry⟩ := hplain.linkFree.exists_of_locate hlocate
  rw [Snapshot.normalPath_eq_ok, h.root_eq, hplain.normal?_ofNames hentry] at hnormal
  obtain rfl := Option.some.inj hnormal
  exact ⟨folder, hlocate, (Except.ok.inj hproject).symm⟩

/-- A document that was found for a project is listed by it, unless it is the very file that the project
has for its folder. -/
theorem listed_or_folder {key : String} (hkey : key ∈ members) (hdocument : key ∈ documents.keys) :
    ∃ project ∈ projects, key ∈ project.documents ∨ project.directory = key := by
  obtain ⟨names, hne, hnames, rfl, hsource⟩ := h.names_of_member hplain hkey
  obtain ⟨p, hp, folder, hstands, ⟨rest, rfl⟩, -⟩ := h.exists_standsAt hsource
  have hfolder : ∀ name ∈ folder, IsName name :=
    fun name hmem => hnames name (List.mem_append_left _ hmem)
  obtain ⟨project, hproject, other, hother, rfl⟩ :=
    exists_of_forall₂ (h.forall₂_placed hplain hprojects) hp
  obtain rfl := hstands.unique hother
  refine ⟨_, hproject, ?_⟩
  by_cases hrest : rest = []
  · subst hrest
    rw [List.append_nil] at hne ⊢
    exact .inr (folderName_of_ne_nil hne hfolder)
  · exact .inl (List.mem_filter.mpr
      ⟨hdocument, (isBelow_folderName hfolder hne hnames).mpr ⟨rest, hrest, rfl⟩⟩)

end Solution.ReadFrom

end CodeIntel
