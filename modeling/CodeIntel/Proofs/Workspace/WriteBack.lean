import CodeIntel.Proofs.Disk.Writes
import CodeIntel.Proofs.Workspace.Documents
import Mathlib.Data.List.Find
import Mathlib.Data.List.Induction
import Mathlib.Data.List.Sort

/-! Writing documents back. Edits change the documents that they name, in path order, each by the edits
that are given for it. The changed documents are written one after another; where a write is refused,
those before it are written once more, with the texts that the snapshot holds. Either way each place
holds in the end what the last document written there says, and every other place is as it was. -/

namespace CodeIntel

namespace Disk

/-- The place to which a document is written, if it can be. -/
def fileOf? (disk : Disk) (root : String) (document : Document) : Option Place :=
  (disk.writePlace (Path.join root document.path)).toOption

/-- The disk after some documents are written one after another. -/
def withAll (disk : Disk) (root : String) (documents : List Document) : Disk :=
  documents.foldl
    (fun disk document => disk.written (Path.join root document.path) document.text.toUTF8) disk

/-- The last of some documents that is written to a place. -/
def lastTo? (disk : Disk) (root : String) (documents : List Document) (place : Place) :
    Option Document :=
  documents.reverse.find? fun document => disk.fileOf? root document = some place

/-- What stands at a place once some documents are written: the text of the last one that is written
there, or else what stood there before. -/
def overlaid (disk : Disk) (root : String) (documents : List Document) (place : Place) : Option Entry :=
  match disk.lastTo? root documents place with
  | some document => some (.file document.text.toUTF8)
  | none => disk.bareAt place

variable {disk other : Disk} {root : String} {documents : List Document} {document : Document}
  {place : Place}

theorem fileOf?_eq_some :
    disk.fileOf? root document = some place ↔
      disk.writePlace (Path.join root document.path) = .ok place :=
  toOption_eq_some

theorem fileOf?_congr {second : Document} (h : document.path = second.path) :
    disk.fileOf? root document = disk.fileOf? root second := by
  rw [fileOf?, fileOf?, h]

theorem Grown.fileOf?_eq (h : Grown disk other) :
    other.fileOf? root document = disk.fileOf? root document := by
  ext place
  rw [fileOf?_eq_some, fileOf?_eq_some, h.writePlace_iff]

theorem Grown.lastTo?_eq (h : Grown disk other) :
    other.lastTo? root documents place = disk.lastTo? root documents place := by
  simp only [lastTo?, h.fileOf?_eq]

theorem written_eq (disk : Disk) (path : String) (content : ByteArray) :
    disk.written path content =
      match disk.writePlace path with
      | .ok place => disk.put place (.file content)
      | .error _ => disk := by
  rw [written, write]
  cases disk.writePlace path <;> rfl

theorem Grown.written (disk : Disk) (path : String) (content : ByteArray) :
    Grown disk (disk.written path content) := by
  rw [written_eq]
  cases hplace : disk.writePlace path with
  | error => exact .refl disk
  | ok place => exact .put (writable_of_writePlace hplace) content

theorem bareAt_written (disk : Disk) (root : String) (document : Document) (content : ByteArray)
    (place : Place) :
    (disk.written (Path.join root document.path) content).bareAt place =
      if disk.fileOf? root document = some place then some (.file content) else disk.bareAt place := by
  rw [written_eq, fileOf?]
  cases hplace : disk.writePlace (Path.join root document.path) with
  | error => rfl
  | ok goal =>
      rw [(writable_of_writePlace hplace).bareAt_put content place]
      simp [Except.toOption, eq_comm]

theorem Grown.withAll (disk : Disk) (root : String) (documents : List Document) :
    Grown disk (disk.withAll root documents) := by
  induction documents generalizing disk with
  | nil => exact .refl disk
  | cons document rest ih => exact (Grown.written disk _ _).trans (ih _)

/-- Writing documents one after another leaves at each place the last one that goes there. -/
theorem bareAt_withAll (disk : Disk) (root : String) (documents : List Document) (place : Place) :
    (disk.withAll root documents).bareAt place = disk.overlaid root documents place := by
  induction documents using List.reverseRecOn with
  | nil => rfl
  | append_singleton front document ih =>
      have hlast : disk.withAll root (front ++ [document]) =
          (disk.withAll root front).written (Path.join root document.path) document.text.toUTF8 := by
        rw [withAll, List.foldl_append]
        rfl
      rw [hlast, bareAt_written, (Grown.withAll disk root front).fileOf?_eq, ih, overlaid, overlaid,
        lastTo?, lastTo?, List.reverse_append, List.reverse_singleton, List.singleton_append,
        List.find?_cons]
      by_cases hplace : disk.fileOf? root document = some place
      · simp [hplace]
      · simp [hplace]

theorem written_of_write_eq_ok {path : String} {content : ByteArray}
    (h : disk.write path content = .ok other) :
    disk.written path content = other ∧ ∃ place, disk.writePlace path = .ok place := by
  refine ⟨by rw [written, h], ?_⟩
  obtain ⟨place, hplace, -⟩ := bind_eq_ok.mp h
  exact ⟨place, hplace⟩

theorem fileOf?_of_write_eq_error {content : ByteArray} {fault : DiskFault}
    (h : disk.write (Path.join root document.path) content = .error fault) :
    disk.fileOf? root document = none := by
  rcases bind_eq_error.mp h with hplace | ⟨_, -, h⟩
  · rw [fileOf?, hplace]
    rfl
  · cases h

theorem mem_of_lastTo? (h : disk.lastTo? root documents place = some document) :
    document ∈ documents ∧ disk.fileOf? root document = some place := by
  refine ⟨List.mem_reverse.mp (List.mem_of_find?_eq_some h), ?_⟩
  simpa using List.find?_some h

theorem lastTo?_eq_none :
    disk.lastTo? root documents place = none ↔
      ∀ document ∈ documents, disk.fileOf? root document ≠ some place := by
  simp [lastTo?, List.find?_eq_none]

/-- Documents and what takes their places are written to the same places. -/
theorem exists_lastTo?_map {changed : List (Document × Document)}
    (hpaths : ∀ pair ∈ changed, pair.2.path = pair.1.path) (disk : Disk) (root : String)
    (place : Place) :
    ∃ found, (∀ pair, found = some pair → pair ∈ changed) ∧
      disk.lastTo? root (changed.map Prod.fst) place = found.map Prod.fst ∧
      disk.lastTo? root (changed.map Prod.snd) place = found.map Prod.snd := by
  refine ⟨changed.reverse.find? fun pair => disk.fileOf? root pair.1 = some place, fun pair hpair => ?_,
    ?_, ?_⟩
  · exact List.mem_reverse.mp (List.mem_of_find?_eq_some hpair)
  · rw [lastTo?, ← List.map_reverse, List.find?_map]
    rfl
  · rw [lastTo?, ← List.map_reverse, List.find?_map]
    refine congrArg _ (List.find?_congr fun pair hmem => ?_)
    rw [Function.comp_apply, fileOf?_congr (hpaths pair (List.mem_reverse.mp hmem))]

/-- Every place to which a document can be written holds the text of the document. -/
def Agrees (disk : Disk) (root : String) (document : Document) : Prop :=
  ∀ place, disk.fileOf? root document = some place →
    disk.bareAt place = some (.file document.text.toUTF8)

theorem agrees_of_read (h : disk.read (Path.join root document.path) = .ok document.text.toUTF8) :
    disk.Agrees root document :=
  fun _ hplace => bareAt_of_read h (fileOf?_eq_some.mp hplace)

/-- Texts that the files have already change nothing. -/
theorem overlaid_of_agrees (h : ∀ document ∈ documents, disk.Agrees root document) (place : Place) :
    disk.overlaid root documents place = disk.bareAt place := by
  rw [overlaid]
  cases hlast : disk.lastTo? root documents place with
  | none => rfl
  | some document =>
      obtain ⟨hmem, hplace⟩ := mem_of_lastTo? hlast
      exact (h document hmem place hplace).symm

end Disk

namespace Store

open Disk

variable {root : String} {disk after : Disk} {changed : List (Document × Document)}

/-- Documents that are all written are laid over the disk. -/
theorem withAll_of_writeBack {written : List Document} {done : Unit}
    (h : writeBack root written disk changed = (.ok done, after)) :
    after = disk.withAll root (changed.map Prod.snd) ∧
      ∀ pair ∈ changed, ∃ place, disk.fileOf? root pair.2 = some place := by
  induction changed generalizing disk written with
  | nil => exact ⟨(Prod.mk.inj h).2.symm, fun _ hmem => absurd hmem List.not_mem_nil⟩
  | cons pair rest ih =>
      rw [writeBack_cons] at h
      split at h
      · rename_i middle hwrite
        obtain ⟨rfl, place, hplace⟩ := written_of_write_eq_ok hwrite
        obtain ⟨hafter, hplaces⟩ := ih h
        refine ⟨hafter, fun other hmem => ?_⟩
        rcases List.mem_cons.mp hmem with rfl | hmem
        · exact ⟨place, fileOf?_eq_some.mpr hplace⟩
        · obtain ⟨place, hplace⟩ := hplaces other hmem
          exact ⟨place, (Grown.written disk _ _).fileOf?_eq ▸ hplace⟩
      · cases h

/-- A refused write ends the work, and the documents before it are written as they were. -/
theorem exists_of_writeBack_refused {written : List Document} {error : Error}
    (h : writeBack root written disk changed = (.error error, after)) :
    ∃ front pair rest, changed = front ++ pair :: rest ∧
      (∀ other ∈ front, ∃ place, disk.fileOf? root other.2 = some place) ∧
      disk.fileOf? root pair.2 = none ∧
      (∃ fault : DiskFault, error = .internal s!"Failed to write {pair.2.path}: {fault.message}") ∧
      after = (disk.withAll root (front.map Prod.snd)).withAll root
        (written ++ front.map Prod.fst) := by
  induction changed generalizing disk written with
  | nil => cases h
  | cons pair rest ih =>
      rw [writeBack_cons] at h
      split at h
      · rename_i middle hwrite
        obtain ⟨rfl, place, hplace⟩ := written_of_write_eq_ok hwrite
        obtain ⟨front, refused, rest', rfl, hfront, hrefused, hfault, hafter⟩ := ih h
        -- The first write may have made a file, but all documents still go to the same places.
        have hgrown := Grown.written disk (Path.join root pair.2.path) pair.2.text.toUTF8
        refine ⟨pair :: front, refused, rest', rfl, fun other hmem => ?_, ?_, hfault, ?_⟩
        · rcases List.mem_cons.mp hmem with rfl | hmem
          · exact ⟨place, fileOf?_eq_some.mpr hplace⟩
          · obtain ⟨place, hplace⟩ := hfront other hmem
            exact ⟨place, hgrown.fileOf?_eq ▸ hplace⟩
        · rw [← hgrown.fileOf?_eq]
          exact hrefused
        · rw [hafter, List.append_assoc]
          rfl
      · rename_i fault hwrite
        obtain ⟨herror, rfl⟩ := Prod.mk.inj h
        refine ⟨[], pair, rest, rfl, fun _ hmem => absurd hmem List.not_mem_nil,
          fileOf?_of_write_eq_error hwrite, ⟨fault, (Except.error.inj herror).symm⟩, ?_⟩
        rw [List.map_nil, List.map_nil, List.append_nil]
        rfl

/-- Written twice, first as changed and then as they were, documents leave their old texts. -/
theorem bareAt_restored (disk : Disk) (root : String) {front : List (Document × Document)}
    (hpaths : ∀ pair ∈ front, pair.2.path = pair.1.path) (place : Place) :
    ((disk.withAll root (front.map Prod.snd)).withAll root (front.map Prod.fst)).bareAt place =
      disk.overlaid root (front.map Prod.fst) place := by
  obtain ⟨found, -, hfst, hsnd⟩ := exists_lastTo?_map hpaths disk root place
  rw [bareAt_withAll, overlaid, overlaid, (Grown.withAll disk root _).lastTo?_eq, hfst]
  cases found with
  | some pair => rfl
  | none =>
      change (disk.withAll root (front.map Prod.snd)).bareAt place = disk.bareAt place
      rw [bareAt_withAll, overlaid, hsnd]
      rfl

/-! ### Which documents are written -/

/-- Whether one of some edits is given for a path in normal form. -/
def addresses (disk : Disk) (root : String) (edits : List DocumentEdit) (key : String) : Bool :=
  edits.any fun edit => disk.normal? root edit.path = some key

/-- The edits that are given for a path in normal form, in their order. -/
def editsAt (disk : Disk) (root : String) (edits : List DocumentEdit) (key : String) : List TextEdit :=
  (edits.filter fun edit => disk.normal? root edit.path = some key).flatMap DocumentEdit.edits

/-- The documents for which edits are given, in path order. -/
def addressed (disk : Disk) (snapshot : Snapshot) (edits : List DocumentEdit) : List Document :=
  snapshot.allDocuments.filter fun document => addresses disk snapshot.root edits document.path

theorem editsAt_eq_nil {edits : List DocumentEdit} {key : String}
    (h : ¬ addresses disk root edits key = true) : editsAt disk root edits key = [] := by
  rw [addresses, List.any_eq_true, not_exists] at h
  rw [editsAt, List.filter_eq_nil_iff.mpr fun edit hmem hkey => h edit ⟨hmem, hkey⟩]
  rfl

/-- Under each path stand the edits that are given for it. -/
theorem get?_grouped {edits : List DocumentEdit} {groups : Keyed (List TextEdit)}
    (h : grouped disk root edits = .ok groups) (key : String) :
    groups.get? key =
      if addresses disk root edits key then some (editsAt disk root edits key) else none := by
  suffices hfold : ∀ sofar : Keyed (List TextEdit),
      edits.foldlM (fun (groups : Keyed (List TextEdit)) edit => do
        let path ← (Snapshot.normalPath disk root edit.path).mapError CoordinateError.toError
        return groups.insert path ((groups.get? path).getD [] ++ edit.edits)) sofar =
        Except.ok groups →
      groups.get? key = if addresses disk root edits key
        then some ((sofar.get? key).getD [] ++ editsAt disk root edits key) else sofar.get? key from
    hfold [] h
  clear h
  induction edits with
  | nil =>
      intro sofar h
      rw [Except.ok.inj h]
      rfl
  | cons edit rest ih =>
      intro sofar h
      rw [List.foldlM_cons] at h
      obtain ⟨middle, hmiddle, h⟩ := bind_eq_ok.mp h
      obtain ⟨path, hpath, hmiddle⟩ := bind_eq_ok.mp hmiddle
      obtain rfl := Except.ok.inj hmiddle
      have hnormal := Snapshot.normalPath_eq_ok.mp hpath
      rw [ih _ h]
      by_cases hkey : path = key
      · subst hkey
        simp only [addresses, editsAt, List.any_cons, List.filter_cons, hnormal, decide_true,
          Bool.true_or, if_true, Keyed.get?_insert_self, Option.getD_some, List.flatMap_cons,
          List.append_assoc]
        split
        · rfl
        · rename_i hrest
          rw [← editsAt, editsAt_eq_nil hrest, List.append_nil]
      · have hother : decide (some path = some key) = false := by simpa using hkey
        simp only [addresses, editsAt, List.any_cons, List.filter_cons, hnormal, hother, Bool.false_or,
          Bool.false_eq_true, if_false, Keyed.get?_insert_of_ne _ _ (Ne.symm hkey)]

section

variable {snapshot : Snapshot} {edits : List DocumentEdit} {groups : Keyed (List TextEdit)}

theorem mem_keys_grouped (hgroups : grouped disk root edits = .ok groups) {key : String} :
    key ∈ groups.keys ↔ addresses disk root edits key = true := by
  have hget := get?_grouped hgroups key
  constructor
  · intro hmem
    obtain ⟨⟨_, group⟩, hentry, rfl⟩ := List.mem_map.mp hmem
    rw [(grouped_ascending hgroups).get?_of_mem hentry] at hget
    by_contra hnot
    rw [if_neg hnot] at hget
    cases hget
  · intro hkey
    rw [if_pos hkey] at hget
    exact List.mem_map_of_mem (Keyed.mem_of_get? hget)

/-- The documents that edits change are those for which edits are given, in path order. -/
theorem map_fst_edited (hfiled : Filed snapshot.documents)
    (hgroups : grouped disk snapshot.root edits = .ok groups)
    (hchanged : edited snapshot groups = .ok changed) :
    changed.map Prod.fst = addressed disk snapshot edits := by
  obtain ⟨hkeys, hpairs⟩ := paths_of_edited hfiled hchanged
  have hpaths : changed.map (fun pair => pair.1.path) = groups.keys := by
    rw [← hkeys]
    exact List.map_congr_left fun pair hmem => (hpairs pair hmem).2.symm
  have hordered : (changed.map Prod.fst).Pairwise fun first second => first.path < second.path := by
    have hgreater := grouped_ascending hgroups
    rw [Keyed.Ascending, ← List.pairwise_map, ← Keyed.keys, ← hpaths] at hgreater
    exact List.pairwise_map.mpr (List.pairwise_map.mp hgreater)
  have hordered' : (addressed disk snapshot edits).Pairwise fun first second =>
      first.path < second.path := hfiled.ordered.sublist List.filter_sublist
  -- Both lists ascend, so that it is enough to compare their members.
  refine List.Pairwise.eq_of_mem_iff hordered hordered' fun document => ?_
  rw [addressed, List.mem_filter, ← mem_keys_grouped hgroups, ← hpaths]
  constructor
  · intro hmem
    obtain ⟨pair, hpair, rfl⟩ := List.mem_map.mp hmem
    exact ⟨(Snapshot.mem_allDocuments hfiled).mpr (hpairs pair hpair).1, List.mem_map_of_mem hpair⟩
  · rintro ⟨hmem, hpath⟩
    obtain ⟨pair, hpair, hpath⟩ := List.mem_map.mp hpath
    have hknown := hfiled.ascending.get?_of_mem (hpairs pair hpair).1
    have hdocument := Snapshot.document?_of_mem hfiled hmem
    rw [← hpath, Snapshot.document?, hknown] at hdocument
    rw [← Option.some.inj hdocument]
    exact List.mem_map_of_mem hpair

/-- Each document is changed by the edits that are given for it. -/
theorem applyEdits_of_mem_edited (hfiled : Filed snapshot.documents)
    (hgroups : grouped disk snapshot.root edits = .ok groups)
    (hchanged : edited snapshot groups = .ok changed) {pair : Document × Document}
    (hmem : pair ∈ changed) :
    pair.1.applyEdits (editsAt disk snapshot.root edits pair.1.path) (snapshot.version + 1) =
      .ok pair.2 := by
  obtain ⟨⟨key, group⟩, hentry, hdocument, happly⟩ := exists_of_mem_edited hchanged hmem
  obtain rfl := (hfiled.named _ _ (Keyed.mem_of_get? hdocument)).1
  have hget := get?_grouped hgroups pair.1.path
  rw [(grouped_ascending hgroups).get?_of_mem hentry,
    if_pos ((mem_keys_grouped hgroups).mp (List.mem_map_of_mem hentry))] at hget
  rw [← Option.some.inj hget]
  exact happly

end

end Store

end CodeIntel
