import CodeIntel.Disk.Scan
import CodeIntel.Proofs.Disk.Writes

/-! Which files a listing shows. A listing goes through the children of a folder one after another; on a
disk that keeps the names of each folder apart it shows exactly the files that are found below the
folder without a passed-over folder on the way. Putting a file in the place of a file changes no
listing, whatever the disk is like. -/

namespace CodeIntel

namespace Entry

/-- The children of a folder have different names. -/
def Distinct (entry : Entry) : Prop :=
  ∀ place children, entry.find? place = some (.folder children) → (children.map Prod.fst).Nodup

theorem mem_of_child? {children : List (String × Entry)} {name : String} {entry : Entry}
    (h : child? name children = some entry) : (name, entry) ∈ children := by
  induction children with
  | nil => cases h
  | cons head rest ih =>
      obtain ⟨first, other⟩ := head
      rw [child?] at h
      split at h
      · rename_i hname
        rw [hname, Option.some.inj h]
        exact List.mem_cons_self
      · exact List.mem_cons_of_mem _ (ih h)

theorem child?_of_mem {children : List (String × Entry)} {name : String} {entry : Entry}
    (hdistinct : (children.map Prod.fst).Nodup) (h : (name, entry) ∈ children) :
    child? name children = some entry := by
  induction children with
  | nil => cases h
  | cons head rest ih =>
      obtain ⟨first, other⟩ := head
      rw [List.map_cons, List.nodup_cons] at hdistinct
      rw [child?]
      rcases List.mem_cons.mp h with heq | hmem
      · obtain ⟨rfl, rfl⟩ := Prod.mk.inj heq
        rw [if_pos rfl]
      · have hne : first ≠ name := by
          rintro rfl
          exact hdistinct.1 (List.mem_map.mpr ⟨_, hmem, rfl⟩)
        rw [if_neg hne, ih hdistinct.2 hmem]

/-- The files below some children are those of each child that is no passed-over folder. -/
theorem mem_filesAmong {children : List (String × Entry)} {place : Place} :
    place ∈ filesAmong children ↔ ∃ name entry rest, place = name :: rest ∧ (name, entry) ∈ children ∧
      (entry.isFolder && isPassedOver name) = false ∧ rest ∈ entry.files := by
  induction children with
  | nil => simp [filesAmong]
  | cons head others ih =>
      obtain ⟨first, child⟩ := head
      have hhead : place ∈ (if child.isFolder && isPassedOver first then []
          else child.files.map (first :: ·)) ↔
          (child.isFolder && isPassedOver first) = false ∧ ∃ rest ∈ child.files, first :: rest = place := by
        cases child.isFolder && isPassedOver first <;> simp
      rw [filesAmong, List.mem_append, hhead, ih]
      constructor
      · rintro (⟨hlooked, rest, hrest, rfl⟩ | ⟨name, entry, rest, rfl, hmem, hlooked, hrest⟩)
        · exact ⟨first, child, rest, rfl, List.mem_cons_self, hlooked, hrest⟩
        · exact ⟨name, entry, rest, rfl, List.mem_cons_of_mem _ hmem, hlooked, hrest⟩
      · rintro ⟨name, entry, rest, rfl, hmem, hlooked, hrest⟩
        rcases List.mem_cons.mp hmem with heq | hmem
        · obtain ⟨rfl, rfl⟩ := Prod.mk.inj heq
          exact .inl ⟨hlooked, rest, hrest, rfl⟩
        · exact .inr ⟨name, entry, rest, rfl, hmem, hlooked, hrest⟩

theorem find?_cons_eq_some {entry found : Entry} {name : String} {rest : Place} :
    entry.find? (name :: rest) = some found ↔ ∃ children child, entry = .folder children ∧
      child? name children = some child ∧ child.find? rest = some found := by
  cases entry with
  | file | link => simp [find?]
  | folder children =>
      rw [find?_folder_cons, Option.bind_eq_some_iff]
      simp

/-- Only a folder has anything below it. -/
theorem exists_folder_of_find? {entry found : Entry} {place : Place} (hne : place ≠ [])
    (h : entry.find? place = some found) : ∃ children, entry = .folder children := by
  obtain ⟨name, rest, rfl⟩ := List.exists_cons_of_ne_nil hne
  obtain ⟨children, _, rfl, -, -⟩ := find?_cons_eq_some.mp h
  exact ⟨children, rfl⟩

theorem find?_file {content : ByteArray} {found : Entry} {place : Place}
    (h : (file content).find? place = some found) : place = [] ∧ found = .file content := by
  cases place with
  | nil => exact ⟨rfl, (Option.some.inj h).symm⟩
  | cons => cases h

theorem find?_append (entry : Entry) (front back : Place) :
    entry.find? (front ++ back) = (entry.find? front).bind (·.find? back) := by
  induction front generalizing entry with
  | nil => rfl
  | cons name rest ih =>
      cases entry with
      | file | link => rfl
      | folder children =>
          rw [List.cons_append, find?_folder_cons, find?_folder_cons, Option.bind_assoc]
          exact Option.bind_congr fun child _ => ih child

theorem Distinct.below {entry found : Entry} (h : entry.Distinct) {place : Place}
    (hfound : entry.find? place = some found) : found.Distinct := by
  intro rest children hrest
  refine h (place ++ rest) children ?_
  rw [find?_append, hfound]
  exact hrest

/-- On the way to a file the last name is its own, and those before it are names of folders. -/
theorem forall_dropLast_cons {entry : Entry} {name : String} {rest : Place} {content : ByteArray}
    (hfile : entry.find? rest = some (.file content)) :
    (∀ folder ∈ (name :: rest).dropLast, isPassedOver folder = false) ↔
      (entry.isFolder && isPassedOver name) = false ∧
        ∀ folder ∈ rest.dropLast, isPassedOver folder = false := by
  cases rest with
  | nil =>
      obtain rfl := Option.some.inj hfile
      simp [isFolder]
  | cons next others =>
      obtain ⟨below, rfl⟩ := exists_folder_of_find? (List.cons_ne_nil _ _) hfile
      simp [isFolder]

/-- A listing shows the files that are found without a passed-over folder on the way. -/
theorem Distinct.mem_files {entry : Entry} (h : entry.Distinct) {place : Place} :
    place ∈ entry.files ↔ (∃ content, entry.find? place = some (.file content)) ∧
      ∀ folder ∈ place.dropLast, isPassedOver folder = false := by
  induction place generalizing entry with
  | nil =>
      cases entry with
      | file content => simp [files, find?]
      | folder children => simp [files, find?, mem_filesAmong]
      | link target => simp [files, find?]
  | cons name rest ih =>
      cases entry with
      | file | link => simp [files, find?]
      | folder children =>
          have hdistinct : ∀ child, child? name children = some child → child.Distinct := by
            intro child hchild
            have hfound : (folder children).find? [name] = some child :=
              find?_cons_eq_some.mpr ⟨children, child, rfl, hchild, rfl⟩
            exact h.below hfound
          rw [files, mem_filesAmong]
          constructor
          · rintro ⟨_, child, _, heq, hmem, hlooked, hrest⟩
            obtain ⟨rfl, rfl⟩ := List.cons.inj heq
            have hchild := child?_of_mem (h [] children rfl) hmem
            obtain ⟨⟨content, hfile⟩, hbelow⟩ := (ih (hdistinct child hchild)).mp hrest
            exact ⟨⟨content, find?_cons_eq_some.mpr ⟨children, child, rfl, hchild, hfile⟩⟩,
              (forall_dropLast_cons hfile).mpr ⟨hlooked, hbelow⟩⟩
          · rintro ⟨⟨content, hfound⟩, hfolders⟩
            obtain ⟨_, child, heq, hchild, hfile⟩ := find?_cons_eq_some.mp hfound
            obtain rfl := Entry.folder.inj heq
            obtain ⟨hlooked, hbelow⟩ := (forall_dropLast_cons hfile).mp hfolders
            exact ⟨name, child, rest, rfl, mem_of_child? hchild, hlooked,
              (ih (hdistinct child hchild)).mpr ⟨⟨content, hfile⟩, hbelow⟩⟩

/-! ### A file in the place of a file -/

section

variable {entry next : Entry} {place : Place} {old new : ByteArray}

theorem isFolder_put (h : entry.find? place = some (.file old)) :
    (put (.file new) entry place).isFolder = entry.isFolder := by
  cases place with
  | nil =>
      obtain rfl := Option.some.inj h
      rfl
  | cons name rest =>
      obtain ⟨children, rfl⟩ := exists_folder_of_find? (List.cons_ne_nil _ _) h
      rfl

/-- A child in the place of one with the same files. -/
theorem mem_filesAmong_putChild {children : List (String × Entry)} {name : String}
    (hchild : child? name children = some entry) (hfolder : next.isFolder = entry.isFolder)
    (hfiles : ∀ rest, rest ∈ next.files ↔ rest ∈ entry.files) (other : Place) :
    other ∈ filesAmong (putChild name next children) ↔ other ∈ filesAmong children := by
  have hsame : ∀ rest, other ∈ filesAmong ((name, next) :: rest) ↔
      other ∈ filesAmong ((name, entry) :: rest) := by
    intro rest
    simp only [filesAmong, hfolder, List.mem_append]
    split
    · rfl
    · simp only [List.mem_map, hfiles]
  induction children with
  | nil => cases hchild
  | cons head rest ih =>
      obtain ⟨first, kept⟩ := head
      rw [child?] at hchild
      rw [putChild]
      split at hchild
      · rename_i hname
        obtain rfl := hname
        obtain rfl := Option.some.inj hchild
        rw [if_neg (String.lt_irrefl first), if_pos rfl]
        exact hsame rest
      · rename_i hne
        have hmem := mem_of_child? hchild
        split
        · -- The child is put in front of others; the one that it stands for comes later.
          rw [hsame]
          constructor
          · intro h
            rcases mem_filesAmong.mp h with ⟨_, _, below, rfl, hwhere, hlooked, hbelow⟩
            rcases List.mem_cons.mp hwhere with heq | hwhere
            · obtain ⟨rfl, rfl⟩ := Prod.mk.inj heq
              exact mem_filesAmong.mpr ⟨_, _, below, rfl, List.mem_cons_of_mem _ hmem, hlooked, hbelow⟩
            · exact mem_filesAmong.mpr ⟨_, _, below, rfl, hwhere, hlooked, hbelow⟩
          · intro h
            rw [filesAmong, List.mem_append]
            exact .inr h
        · rw [if_neg (Ne.symm hne), filesAmong, filesAmong, List.mem_append, List.mem_append]
          exact or_congr_right (ih hchild)

theorem mem_files_put (h : entry.find? place = some (.file old)) (other : Place) :
    other ∈ (put (.file new) entry place).files ↔ other ∈ entry.files := by
  induction place generalizing entry other with
  | nil =>
      obtain rfl := Option.some.inj h
      rfl
  | cons name rest ih =>
      obtain ⟨children, child, rfl, hchild, hfile⟩ := find?_cons_eq_some.mp h
      rw [put, hchild, files, files]
      exact mem_filesAmong_putChild hchild (isFolder_put hfile) (fun _ => ih hfile _) other

/-- The files below a place are the same before and after. -/
theorem exists_mem_files_put (h : entry.find? place = some (.file old)) (top rest : Place) :
    (∃ found, (put (.file new) entry place).find? top = some found ∧ rest ∈ found.files) ↔
      ∃ found, entry.find? top = some found ∧ rest ∈ found.files := by
  induction place generalizing entry top with
  | nil =>
      obtain rfl := Option.some.inj h
      cases top with
      | nil => simp [put, find?, files]
      | cons first others => simp [put, find?]
  | cons name below ih =>
      obtain ⟨children, child, rfl, hchild, hfile⟩ := find?_cons_eq_some.mp h
      cases top with
      | nil =>
          have hfiles : rest ∈ (put (.file new) (.folder children) (name :: below)).files ↔
              rest ∈ (Entry.folder children).files := mem_files_put h rest
          simpa only [find?, Option.some.injEq, exists_eq_left'] using hfiles
      | cons first others =>
          rw [put, hchild, find?_folder_cons, find?_folder_cons]
          by_cases hname : first = name
          · subst hname
            rw [child?_putChild_self, hchild]
            exact ih hfile others
          · rw [child?_putChild_of_ne _ _ hname]

end

end Entry

namespace Disk

variable {disk : Disk} {extensions : List String} {directory file : Place}

theorem mem_sources :
    file ∈ disk.sources extensions directory ↔
      ∃ below, file = directory ++ below ∧ Path.hasExtension extensions (Path.ofNames file) ∧
        ∃ entry, disk.top.find? directory = some entry ∧ below ∈ entry.files := by
  rw [sources]
  cases hentry : disk.top.find? directory with
  | none => simp
  | some entry =>
      simp only [List.mem_mergeSort, List.mem_filter, List.mem_map]
      constructor
      · rintro ⟨⟨below, hbelow, rfl⟩, hextension⟩
        exact ⟨below, rfl, hextension, entry, rfl, hbelow⟩
      · rintro ⟨below, rfl, hextension, _, heq, hbelow⟩
        obtain rfl := Option.some.inj heq
        exact ⟨⟨below, hbelow, rfl⟩, hextension⟩

/-- A file in the place of a file changes no list of sources. -/
theorem mem_sources_put {place : Place} {old : ByteArray} (new : ByteArray)
    (h : disk.top.find? place = some (.file old)) :
    file ∈ (disk.put place (.file new)).sources extensions directory ↔
      file ∈ disk.sources extensions directory := by
  rw [mem_sources, mem_sources]
  refine exists_congr fun below => and_congr_right fun _ => and_congr_right fun _ => ?_
  exact Entry.exists_mem_files_put h directory below

/-- A regular file at or below a folder that has one of some extensions, where no folder between the
two is passed over. -/
def IsSource (disk : Disk) (extensions : List String) (directory file : Place) : Prop :=
  (∃ content, disk.top.find? file = some (.file content)) ∧
    Path.hasExtension extensions (Path.ofNames file) ∧
    ∃ below, file = directory ++ below ∧ ∀ folder ∈ below.dropLast, isPassedOver folder = false

/-- Where the names in a folder differ, the sources that are listed are all that there are. -/
theorem mem_sources_iff_isSource (hdistinct : disk.top.Distinct) :
    file ∈ disk.sources extensions directory ↔ disk.IsSource extensions directory file := by
  rw [mem_sources]
  constructor
  · rintro ⟨below, rfl, hextension, entry, hentry, hbelow⟩
    obtain ⟨⟨content, hfile⟩, hfolders⟩ := (hdistinct.below hentry).mem_files.mp hbelow
    refine ⟨⟨content, ?_⟩, hextension, below, rfl, hfolders⟩
    rw [Entry.find?_append, hentry]
    exact hfile
  · rintro ⟨⟨content, hfile⟩, hextension, below, rfl, hfolders⟩
    rw [Entry.find?_append] at hfile
    obtain ⟨entry, hentry, hfile⟩ := Option.bind_eq_some_iff.mp hfile
    exact ⟨below, rfl, hextension, entry, hentry,
      (hdistinct.below hentry).mem_files.mpr ⟨⟨content, hfile⟩, hfolders⟩⟩

end Disk

end CodeIntel
