import CodeIntel.Proofs.Disk.Places
import Mathlib.Data.List.Nodup
import Mathlib.Data.String.Basic

/-! Which files are the sources of a folder, and in which order they are listed. A file is one if the extension
of its name is a wanted one and no folder on the way to it is passed over. A listing comes to every file once,
since the names in one folder differ, and so the places that it shows ascend. -/

namespace CodeIntel

namespace Path

variable {name stem extension : String}

/-- The extension of a name is what stands behind its last point, if something stands in front of it. -/
def HasExtension (name extension : String) : Prop :=
  ∃ stem, stem ≠ "" ∧ name = stem ++ "." ++ extension ∧ '.' ∉ extension.toList

/-- A text without points, or one that is cut at its last point. -/
theorem notMem_or_exists_last (name : String) : '.' ∉ name.toList ∨
    ∃ stem extension, name = stem ++ "." ++ extension ∧ '.' ∉ extension.toList := by
  by_cases hpoint : '.' ∈ name.toList
  · obtain ⟨back, front, hname, hback⟩ := List.eq_append_cons_of_mem (List.mem_reverse.mpr hpoint)
    refine .inr ⟨String.ofList front.reverse, String.ofList back.reverse, ?_, by simpa using hback⟩
    apply String.toList_inj.mp
    rw [← List.reverse_reverse name.toList, hname]
    simp
  · exact .inl hpoint

theorem extensionOf?_of_notMem (h : '.' ∉ name.toList) : extensionOf? name = none := by
  rw [extensionOf?, Text.pieces_of_notMem h]
  rfl

/-- Behind the last point of a name stands its extension, unless the name begins with that point. -/
theorem extensionOf?_append (h : '.' ∉ extension.toList) :
    extensionOf? (stem ++ "." ++ extension) = if stem = "" then none else some extension := by
  have hpieces : Text.pieces '.' (stem ++ "." ++ extension).toList =
      Text.pieces '.' stem.toList ++ [extension.toList] := by
    rw [String.toList_append, String.toList_append, List.append_assoc, ← Text.pieces_of_notMem h]
    exact Text.pieces_append_cons '.' stem.toList extension.toList
  have hjoined := Text.joined_pieces '.' stem.toList
  rw [extensionOf?, hpieces, List.reverse_append, List.reverse_singleton, List.singleton_append]
  split
  · rename_i heq
    cases heq
  · rename_i heq
    have hnone := List.reverse_eq_nil_iff.mp (List.cons.inj heq).2
    exact absurd hnone (Text.pieces_ne_nil '.' stem.toList)
  · rename_i heq
    have hone := List.reverse_eq_iff.mp (List.cons.inj heq).2
    rw [hone] at hjoined
    rw [if_pos (String.toList_eq_nil_iff.mp hjoined.symm)]
  · rename_i hnotOne heq
    obtain ⟨hlast, hrest⟩ := List.cons.inj heq
    have hstem : stem ≠ "" := by
      rintro rfl
      exact hnotOne hrest.symm
    rw [if_neg hstem, ← hlast, String.ofList_toList]

theorem extensionOf?_eq_some_iff : extensionOf? name = some extension ↔ HasExtension name extension := by
  constructor
  · intro h
    rcases notMem_or_exists_last name with hnone | ⟨stem, back, rfl, hback⟩
    · rw [extensionOf?_of_notMem hnone] at h
      cases h
    · rw [extensionOf?_append hback] at h
      split at h
      · cases h
      · rename_i hstem
        obtain rfl := Option.some.inj h
        exact ⟨stem, hstem, rfl, hback⟩
  · rintro ⟨stem, hstem, rfl, hback⟩
    rw [extensionOf?_append hback, if_neg hstem]

theorem fileName?_ofNames {names : List String} (hnames : ∀ other ∈ names ++ [name], IsName other) :
    fileName? (ofNames (names ++ [name])) = some name := by
  rw [fileName?, parts_ofNames hnames, List.map_append, List.map_singleton, ← List.cons_append,
    List.getLast?_concat]

theorem sameIgnoringCase_iff {first second : String} :
    Text.sameIgnoringCase first second = true ↔ first.toLower = second.toLower := by
  have hlower : ∀ text : String, text.toLower.toList = text.toList.map Char.toLower := fun _ =>
    String.toList_map
  rw [Text.sameIgnoringCase, beq_iff_eq, ← String.toList_inj, hlower, hlower]

/-- A path to a name has one of some extensions if the name has, in letters of either case. -/
theorem hasExtension_ofNames {names extensions : List String}
    (hnames : ∀ other ∈ names ++ [name], IsName other) :
    hasExtension extensions (ofNames (names ++ [name])) = true ↔ ∃ extension, HasExtension name extension ∧
      ∃ wanted ∈ extensions, wanted.toLower = extension.toLower := by
  simp only [hasExtension, extension?, fileName?_ofNames hnames, Option.bind_some, ← extensionOf?_eq_some_iff]
  cases extensionOf? name with
  | none => simp
  | some extension => simp [sameIgnoringCase_iff]

end Path

theorem isPassedOver_iff {name : String} : isPassedOver name = true ↔
    name ∈ ["bin", "obj", "node_modules"] ∨ ∃ rest, name = "." ++ rest := by
  have hhidden : name.toList.head? = some '.' ↔ ∃ rest, name = "." ++ rest := by
    constructor
    · intro h
      obtain ⟨rest, hrest⟩ := List.head?_eq_some_iff.mp h
      exact ⟨String.ofList rest, String.toList_inj.mp (by simp [hrest])⟩
    · rintro ⟨rest, rfl⟩
      rw [String.toList_append]
      rfl
  rw [isPassedOver, Bool.or_eq_true, beq_iff_eq, List.contains_iff_mem, hhidden, Or.comm]
  rfl

namespace Entry

/-- A tree of folders and files. Everything in a folder has a name, and the names in one folder differ. -/
inductive IsTree : Entry → Prop where
  | file {content : ByteArray} : IsTree (.file content)
  | folder {children : List (String × Entry)} : (children.map Prod.fst).Nodup →
      (∀ name ∈ children.map Prod.fst, Path.IsName name) →
      (∀ name child, (name, child) ∈ children → child.IsTree) → IsTree (.folder children)

/-- What is found in a tree is a tree, and names lead to it. -/
theorem IsTree.find? {entry found : Entry} {place : Place} (h : entry.IsTree)
    (hfound : entry.find? place = some found) : found.IsTree ∧ ∀ name ∈ place, Path.IsName name := by
  induction place generalizing entry with
  | nil =>
      obtain rfl := Option.some.inj hfound
      exact ⟨h, fun name hmem => absurd hmem List.not_mem_nil⟩
  | cons name rest ih =>
      obtain ⟨children, child, rfl, hchild, hrest⟩ := find?_cons_eq_some.mp hfound
      cases h with
      | folder _ hnames hbelow =>
          have hmem := mem_of_child? hchild
          obtain ⟨hfound, hrest⟩ := ih (hbelow name child hmem) hrest
          exact ⟨hfound, List.forall_mem_cons.mpr ⟨hnames name (List.mem_map.mpr ⟨_, hmem, rfl⟩), hrest⟩⟩

theorem IsTree.distinct {entry : Entry} (h : entry.IsTree) : entry.Distinct := by
  intro place children hfound
  cases (h.find? hfound).1 with
  | folder hdistinct _ _ => exact hdistinct

mutual

/-- A listing of a tree comes to no file twice. -/
theorem nodup_files : ∀ entry : Entry, entry.IsTree → entry.files.Nodup
  | .file _, _ => by
    rw [files]
    exact List.pairwise_singleton _ _
  | .folder children, .folder hdistinct _ hbelow => by
    rw [files]
    exact nodup_filesAmong children hdistinct hbelow

theorem nodup_filesAmong : ∀ children : List (String × Entry), (children.map Prod.fst).Nodup →
    (∀ name child, (name, child) ∈ children → child.IsTree) → (filesAmong children).Nodup
  | [], _, _ => by
    rw [filesAmong]
    exact List.nodup_nil
  | (name, child) :: rest, hdistinct, hbelow => by
    obtain ⟨hname, hdistinct⟩ := List.nodup_cons.mp hdistinct
    rw [filesAmong]
    apply List.nodup_append.mpr
    refine ⟨?_, nodup_filesAmong rest hdistinct fun other entry hmem =>
      hbelow other entry (List.mem_cons_of_mem _ hmem), fun first hfirst second hsecond => ?_⟩
    · split
      · exact List.nodup_nil
      · exact (nodup_files child (hbelow name child List.mem_cons_self)).map
          fun _ _ heq => (List.cons.inj heq).2
    · -- What is in this child has its name in front, and what is behind has another one.
      rintro rfl
      obtain ⟨other, entry, below, rfl, hmem, -, -⟩ := mem_filesAmong.mp hsecond
      split at hfirst
      · cases hfirst
      · obtain ⟨_, -, heq⟩ := List.mem_map.mp hfirst
        obtain rfl := (List.cons.inj heq).1
        exact hname (List.mem_map.mpr ⟨_, hmem, rfl⟩)

end

end Entry

namespace Disk

variable {disk : Disk} {extensions : List String} {directory : Place} {children : List (String × Entry)}

/-- The sources of a place are listed in ascending order, each once. -/
theorem sources_ascending (htree : disk.top.IsTree) : (disk.sources extensions directory).Pairwise List.lt := by
  rw [sources]
  cases hentry : disk.top.find? directory with
  | none => exact List.Pairwise.nil
  | some entry =>
      dsimp only
      generalize hfound : List.filter _ _ = found
      have hnodup : (found.mergeSort fun a b => decide (List.le a b)).Nodup := by
        rw [(List.mergeSort_perm _ _).nodup_iff, ← hfound]
        refine ((Entry.nodup_files entry (htree.find? hentry).1).map fun _ _ heq => ?_).filter _
        exact List.append_cancel_left heq
      have hsorted : (found.mergeSort fun a b => decide (List.le a b)).Pairwise fun a b =>
          decide (List.le a b) = true := by
        apply List.pairwise_mergeSort
        · intro first second third h h'
          exact decide_eq_true (List.le_trans (of_decide_eq_true h) (of_decide_eq_true h'))
        · intro first second
          rw [Bool.or_eq_true, decide_eq_true_eq, decide_eq_true_eq]
          exact List.le_total first second
      refine (hsorted.and hnodup).imp ?_
      rintro first second ⟨hle, hne⟩
      by_contra hlt
      exact hne (List.le_antisymm (of_decide_eq_true hle) hlt)

/-- The sources of a folder are listed in ascending order. They are the files below it that have one of the
extensions, in letters of either case, and stand in no folder below it that is hidden or holds build output.
Neither the name of the folder itself nor a point at the front of the name of a file counts. -/
theorem sources_exact (htree : disk.top.IsTree) (hfolder : disk.top.find? directory = some (.folder children))
    (extensions : List String) :
    (disk.sources extensions directory).Pairwise List.lt ∧
    ∀ file, file ∈ disk.sources extensions directory ↔ ∃ folders name,
      file = directory ++ folders ++ [name] ∧ (∃ content, disk.top.find? file = some (.file content)) ∧
      (∃ extension, Path.HasExtension name extension ∧
        ∃ wanted ∈ extensions, wanted.toLower = extension.toLower) ∧
      ∀ folder ∈ folders, folder ∉ ["bin", "obj", "node_modules"] ∧ ∀ rest, folder ≠ "." ++ rest := by
  refine ⟨sources_ascending htree, fun file => ?_⟩
  have hlooked : ∀ folder, isPassedOver folder = false ↔
      folder ∉ ["bin", "obj", "node_modules"] ∧ ∀ rest, folder ≠ "." ++ rest := by
    intro folder
    rw [← Bool.not_eq_true, isPassedOver_iff, not_or, not_exists]
  have hextended : ∀ {front name content}, disk.top.find? (front ++ [name]) = some (.file content) →
      (Path.hasExtension extensions (Path.ofNames (front ++ [name])) = true ↔
        ∃ extension, Path.HasExtension name extension ∧
          ∃ wanted ∈ extensions, wanted.toLower = extension.toLower) :=
    fun hfile => Path.hasExtension_ofNames (htree.find? hfile).2
  rw [mem_sources_iff_isSource htree.distinct, IsSource]
  constructor
  · rintro ⟨⟨content, hfile⟩, hextension, below, rfl, hfolders⟩
    rcases List.eq_nil_or_concat below with rfl | ⟨folders, name, rfl⟩
    · rw [List.append_nil, hfolder] at hfile
      cases hfile
    · rw [List.concat_eq_append, ← List.append_assoc] at hfile hextension ⊢
      rw [List.concat_eq_append, List.dropLast_concat] at hfolders
      exact ⟨folders, name, rfl, ⟨content, hfile⟩, (hextended hfile).mp hextension,
        fun folder hmem => (hlooked folder).mp (hfolders folder hmem)⟩
  · rintro ⟨folders, name, rfl, ⟨content, hfile⟩, hextension, hfolders⟩
    refine ⟨⟨content, hfile⟩, (hextended hfile).mpr hextension, folders ++ [name],
      List.append_assoc _ _ _, ?_⟩
    rw [List.dropLast_concat]
    exact fun folder hmem => (hlooked folder).mpr (hfolders folder hmem)

/-- A disk with a folder of build output that has a source in an open folder and another one in a folder of
build output. -/
def buildDisk : Disk where
  top := .folder [("bin", .folder
    [("lib", .folder [(".a.b.CS", .file ⟨#[]⟩)]), ("obj", .folder [("c.cs", .file ⟨#[]⟩)])])]

theorem isTree_buildDisk : buildDisk.top.IsTree := by
  have hleaf : ∀ {name : String}, Path.IsName name →
      (Entry.folder [(name, .file ⟨#[]⟩)]).IsTree := by
    intro name hname
    refine .folder (List.nodup_singleton name) (by simpa using hname) fun other child hmem => ?_
    obtain ⟨rfl, rfl⟩ := Prod.mk.inj (List.mem_singleton.mp hmem)
    exact .file
  refine .folder (List.nodup_singleton "bin") (by simp [Path.IsName]) fun name child hmem => ?_
  obtain ⟨rfl, rfl⟩ := Prod.mk.inj (List.mem_singleton.mp hmem)
  refine .folder (by simp) (by simp [Path.IsName]) fun name child hmem => ?_
  rcases List.mem_pair.mp hmem with heq | heq
  · obtain ⟨rfl, rfl⟩ := Prod.mk.inj heq
    exact hleaf (by simp [Path.IsName])
  · obtain ⟨rfl, rfl⟩ := Prod.mk.inj heq
    exact hleaf (by simp [Path.IsName])

/-- Looked at by itself, a folder of build output has sources. -/
theorem sources_buildDisk : buildDisk.top.IsTree ∧
    ["bin", "lib", ".a.b.CS"] ∈ buildDisk.sources ["cs"] ["bin"] ∧
    ["bin", "obj", "c.cs"] ∉ buildDisk.sources ["cs"] ["bin"] := by
  have hfolder : buildDisk.top.find? ["bin"] = some (.folder
    [("lib", .folder [(".a.b.CS", .file ⟨#[]⟩)]), ("obj", .folder [("c.cs", .file ⟨#[]⟩)])]) := rfl
  obtain ⟨-, hsources⟩ := sources_exact isTree_buildDisk hfolder ["cs"]
  refine ⟨isTree_buildDisk, (hsources _).mpr ⟨["lib"], ".a.b.CS", rfl, ⟨_, rfl⟩, ?_, ?_⟩, fun hmem => ?_⟩
  · exact ⟨"CS", ⟨".a.b", by decide, by decide, by decide⟩, "cs", List.mem_singleton.mpr rfl,
      Path.sameIgnoringCase_iff.mp (by decide)⟩
  · rintro folder (_ | ⟨_, ⟨⟩⟩)
    rw [← not_exists, ← not_or, ← isPassedOver_iff]
    decide
  · obtain ⟨folders, name, hfile, -, -, hfolders⟩ := (hsources _).mp hmem
    have hsplit : ["bin", "obj"] ++ ["c.cs"] = ["bin"] ++ folders ++ [name] := hfile
    obtain ⟨hfront, -⟩ := List.append_inj' hsplit rfl
    obtain rfl := List.append_cancel_left (show ["bin"] ++ ["obj"] = ["bin"] ++ folders from hfront)
    exact (hfolders "obj" List.mem_cons_self).1 (by decide)

end Disk

end CodeIntel
