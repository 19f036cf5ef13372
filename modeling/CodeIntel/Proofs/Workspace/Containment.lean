import CodeIntel.Proofs.Disk.Destinations
import CodeIntel.Proofs.Workspace.Operations
import Mathlib

/-! Which paths a workspace takes in. On a disk without links a path that is taken in has the destination
of its normal form, which lies inside the root and leads there by plain names; a path whose destination
lies outside is refused. Not every path with a destination inside is taken in: a relative one may leave
the root on its way, and an absolute one that goes up has to lead to something. -/

namespace CodeIntel

open CodeIntel.Path CodeIntel.Disk

namespace Disk

variable {disk : Disk} {root path : String}

/-- A path with a destination inside the root has a normal form if it never goes up, or if it is absolute
and leads to something. -/
theorem LinkFree.exists_normal?_of_isPrefix (hfree : disk.LinkFree []) (hroot : isAbsolute root = true)
    (hup : ".." ∉ segments root)
    (hinside : destination [] root <+: destination (destination [] root) (slashed path))
    (hplain : ".." ∉ segments (slashed path) ∨
      isAbsolute (slashed path) = true ∧ ∃ place, disk.locate (slashed path) = .ok place) :
    ∃ key, disk.normal? root path = some key := by
  by_cases habsolute : isAbsolute (slashed path) = true
  · obtain ⟨names, hnames⟩ := hinside
    rw [destination_of_isAbsolute habsolute] at hnames
    -- Settled or not, the path says the names on the way to its destination.
    have hparts : parts (disk.settled (slashed path)) =
        (.root :: (destination [] root).map .name) ++ names.map .name := by
      rw [List.cons_append, ← List.map_append, hnames]
      rcases hfree.settled_cases habsolute with hsettled | ⟨hsettled, hmissing⟩
      · rw [hsettled, parts_ofNames fun _ hmem => (isName_of_mem_destination hmem).1]
      · rw [hsettled]
        refine parts_of_notMem habsolute (hplain.resolve_right ?_)
        rintro ⟨-, place, hplace⟩
        exact hmissing place hplace
    refine ⟨_, (normal?_of_isAbsolute habsolute).mpr ⟨names.map .name, names, ?_, ?_, rfl⟩⟩
    · rw [relativeTo?, if_pos hroot, hparts, parts_of_notMem hroot hup]
      exact between?_append _ _
    · rw [collapse?_names, List.nil_append]
  · have hrelative : isAbsolute (slashed path) = false := Bool.eq_false_iff.mpr habsolute
    obtain ⟨names, hnames⟩ := exists_collapse?_of_notMem hrelative
      (hplain.resolve_right fun hlocated => habsolute hlocated.1)
    exact ⟨ofRelative names, by rw [normal?, if_neg habsolute, Option.bind_some, hnames]; rfl⟩

/-- What a path is located at is named by its normal form. -/
theorem LinkFree.locate_of_normal? (hfree : disk.LinkFree []) (hroot : isAbsolute root = true)
    (hup : ".." ∉ segments root) {key : String} {place : Place}
    (h : disk.normal? root path = some key)
    (hplace : disk.locate (join root (slashed path)) = .ok place) :
    place = destination (destination [] root) key ∧
      (key ≠ "" → disk.locate (join root key) = .ok place) := by
  obtain ⟨names, rfl, hnames, hdestination⟩ :=
    hfree.exists_of_normal? hroot (up_notMem_parts hroot hup) h
  have habsolute : isAbsolute (join root (slashed path)) = true := by
    by_cases hslashed : isAbsolute (slashed path) = true
    · rw [join, if_pos hslashed]
      exact hslashed
    · exact (isAbsolute_join root (Bool.eq_false_iff.mpr hslashed)).trans hroot
  obtain ⟨hwhere, hcan⟩ := hfree.of_locate habsolute hplace
  rw [destination_join, hdestination] at hwhere
  subst hwhere
  refine ⟨(destination_ofRelative fun name hmem => (hnames name hmem).1).symm, fun hkey => ?_⟩
  have hne : names ≠ [] := by
    rintro rfl
    exact hkey rfl
  obtain ⟨entry, hentry⟩ := hfree.exists_of_locate hplace
  exact hfree.locate_join hroot hup hne hcan (by simp [kindAt, hentry])

end Disk

namespace Snapshot

variable {disk : Disk} {root : String}

/-- The normal form of a path is canonical and names what the path names, inside the root. A path that
leads out of the root is refused; one that leads into it is taken in if it never goes up, or if it is
absolute and leads to something. -/
theorem normalPath_contained (hfree : disk.LinkFree []) (hroot : isAbsolute root = true)
    (hup : ".." ∉ segments root) (path : String) :
    let top := destination [] root
    (∀ key, normalPath disk root path = .ok key →
      (key = "" ∨ ∀ name ∈ segments key, IsName name ∧ '\\' ∉ name.toList) ∧
        normalPath disk root key = .ok key ∧
        top <+: destination top key ∧ destination top (slashed path) = destination top key ∧
        ∀ place, disk.locate (join root (slashed path)) = .ok place →
          place = destination top key ∧ (key ≠ "" → disk.locate (join root key) = .ok place)) ∧
      (¬ top <+: destination top (slashed path) →
        normalPath disk root path = .error (.outsideRoot path)) ∧
      (top <+: destination top (slashed path) →
        (".." ∉ segments (slashed path) ∨
          isAbsolute (slashed path) = true ∧ ∃ place, disk.locate (slashed path) = .ok place) →
        ∃ key, normalPath disk root path = .ok key) := by
  intro top
  refine ⟨fun key hkey => ?_, fun houtside => ?_, fun hinside hplain => ?_⟩
  · have hnormal := normal?_of_normalPath hkey
    obtain ⟨names, rfl, hnames, hdestination⟩ :=
      hfree.exists_of_normal? hroot (up_notMem_parts hroot hup) hnormal
    have hisNames : ∀ name ∈ names, IsName name := fun name hmem => (hnames name hmem).1
    have hslash : '\\' ∉ (ofRelative names).toList := by
      rw [ofRelative, mem_toList_intercalate (by decide)]
      rintro ⟨name, hmem, hchar⟩
      exact (hnames name hmem).2 hchar
    have hsame : destination top (ofRelative names) = top ++ names := destination_ofRelative hisNames
    refine ⟨?_, normalPath_of_some (normal?_ofRelative disk root names hisNames hslash), ?_, ?_,
      fun place => hfree.locate_of_normal? hroot hup hnormal⟩
    · rcases List.eq_nil_or_concat names with rfl | ⟨init, last, hlast⟩
      · exact .inl rfl
      · rw [segments_ofRelative (by simp [hlast]) hisNames]
        exact .inr hnames
    · rw [hsame]
      exact List.prefix_append _ _
    · rw [hsame]
      exact hdestination
  · refine normalPath_of_none (Option.eq_none_iff_forall_ne_some.mpr fun key hkey => houtside ?_)
    obtain ⟨names, -, -, hdestination⟩ :=
      hfree.exists_of_normal? hroot (up_notMem_parts hroot hup) hkey
    rw [hdestination]
    exact List.prefix_append _ _
  · obtain ⟨key, hkey⟩ := hfree.exists_normal?_of_isPrefix hroot hup hinside hplain
    exact ⟨key, normalPath_of_some hkey⟩

/-- A disk with one file in one folder. -/
def folderDisk (content : ByteArray) : Disk :=
  { top := .folder [("w", .folder [("b.cs", .file content)])] }

theorem linkFree_folderDisk (content : ByteArray) : (folderDisk content).LinkFree [] := by
  intro name rest target hlink
  obtain ⟨entry, hentry, hkind⟩ := Option.map_eq_some_iff.mp hlink
  obtain ⟨_, folder, htop, hfolder, hbelow⟩ := Entry.find?_cons_eq_some.mp hentry
  obtain rfl := Entry.folder.inj htop
  obtain ⟨rfl, rfl⟩ := Prod.mk.inj (List.mem_singleton.mp (Entry.mem_of_child? hfolder))
  cases rest with
  | nil =>
      obtain rfl := Option.some.inj hbelow
      cases hkind
  | cons next others =>
      obtain ⟨_, file, hw, hfile, hrest⟩ := Entry.find?_cons_eq_some.mp hbelow
      obtain rfl := Entry.folder.inj hw
      obtain ⟨rfl, rfl⟩ := Prod.mk.inj (List.mem_singleton.mp (Entry.mem_of_child? hfile))
      obtain ⟨-, rfl⟩ := Entry.find?_file hrest
      cases hkind

theorem normal?_folderDisk (content : ByteArray) :
    (folderDisk content).normal? "/w" "/w/../w//b.cs" = some "b.cs" := by cbv

theorem locate_folderDisk (content : ByteArray) :
    (folderDisk content).locate "/w/../w//b.cs" = .ok ["w", "b.cs"] := by cbv

/-- The file in the folder goes by its name, however it is written, and what stands beside the folder is
refused. -/
theorem file_in_folder_contained :
    (folderDisk "x".toUTF8).LinkFree [] ∧ isAbsolute "/w" = true ∧ ".." ∉ segments "/w" ∧
      normalPath (folderDisk "x".toUTF8) "/w" ".\\a\\..\\b.cs" = .ok "b.cs" ∧
      normalPath (folderDisk "x".toUTF8) "/w" "/w/../w//b.cs" = .ok "b.cs" ∧
      (folderDisk "x".toUTF8).locate "/w/b.cs" = .ok ["w", "b.cs"] ∧
      normalPath (folderDisk "x".toUTF8) "/w" "/w/../b.cs" = .error (.outsideRoot "/w/../b.cs") := by
  have hfree := linkFree_folderDisk "x".toUTF8
  have hroot : isAbsolute "/w" = true := by decide
  have hup : ".." ∉ segments "/w" := by decide
  have hrelative : (folderDisk "x".toUTF8).normal? "/w" ".\\a\\..\\b.cs" = some "b.cs" := by decide
  have habsolute := normalPath_of_some (normal?_folderDisk "x".toUTF8)
  have hjoin : join "/w" (slashed "/w/../w//b.cs") = "/w/../w//b.cs" := by decide
  have hplace : (folderDisk "x".toUTF8).locate (join "/w" (slashed "/w/../w//b.cs")) =
      .ok ["w", "b.cs"] := by
    rw [hjoin, locate_folderDisk]
  obtain ⟨hcanonical, -⟩ := normalPath_contained hfree hroot hup "/w/../w//b.cs"
  obtain ⟨-, -, -, -, hnames⟩ := hcanonical "b.cs" habsolute
  have hlocated := (hnames _ hplace).2 (by decide)
  have hkey : join "/w" "b.cs" = "/w/b.cs" := by decide
  rw [hkey] at hlocated
  obtain ⟨-, houtside, -⟩ := normalPath_contained hfree hroot hup "/w/../b.cs"
  exact ⟨hfree, hroot, hup, normalPath_of_some hrelative, habsolute, hlocated, houtside (by decide)⟩

end Snapshot

end CodeIntel
